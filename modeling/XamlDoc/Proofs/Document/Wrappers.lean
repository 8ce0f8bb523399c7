import Mathlib.Data.List.Forall2
import XamlDoc.Footnote.Nested
import XamlDoc.Html.PlainText
import XamlDoc.Proofs.Document.Contents
import XamlDoc.Proofs.Document.Margins

/-!
# Wrappers around single nodes

Documents in which some of the wrappers are replaced by the nodes in them. What is told by a node without rendering
it, such as its margins, its text and the references in it, is told by the node that it wraps.
-/

namespace XamlDoc

variable {ν μ : Type}

/-- One of a pair. -/
def side (a : ν × ν) : Bool → ν
  | false => a.1
  | true => a.2

theorem side_same (a : ν) (x : Bool) : side (a, a) x = a := by
  cases x <;> rfl

theorem side_eq {f : ν → μ} {a b : ν} (h : f b = f a) (x : Bool) : f (side (a, b) x) = f a := by
  cases x
  · rfl
  · exact h

theorem side_pair (f : ν → μ) (a b : ν) (x : Bool) : side (f a, f b) x = f (side (a, b) x) := by
  cases x <;> rfl

theorem side_pairs (f : (ν × ν → ν) → μ) (x : Bool) : side (f Prod.fst, f Prod.snd) x = f (side · x) := by
  cases x <;> rfl

theorem NumberedItem.map_map {κ : Type} (f : ν → μ) (g : μ → κ) (i : NumberedItem ν) :
    (i.map f).map g = i.map fun a => g (f a) := rfl

theorem TaskItem.map_map {κ : Type} (f : ν → μ) (g : μ → κ) (i : TaskItem ν) :
    (i.map f).map g = i.map fun a => g (f a) := rfl

theorem DefinitionGroup.map_map {κ : Type} (f : ν → μ) (g : μ → κ) (group : DefinitionGroup ν) :
    (group.map f).map g = group.map fun a => g (f a) := by
  simp only [DefinitionGroup.map, List.map_map, Function.comp_def]

theorem Table.map_map {κ : Type} (f : ν → μ) (g : μ → κ) (t : Table ν) :
    (t.map f).map g = t.map fun a => g (f a) := by
  have hr (row : Row ν) : (row.map f).map g = row.map fun a => g (f a) := by
    rw [Row.map, Row.map, List.map_map]
    exact congrArg (List.map · row) (funext fun cell? => by cases cell? <;> rfl)
  simp only [Table.map, List.map_map, Function.comp_def, hr]

/-- All contents of a table, whether they have a place on the grid or not. -/
def Table.contents (t : Table ν) : List ν :=
  t.allRows.flatMap fun row => row.filterMap fun cell? => cell?.map Cell.content

theorem Row.contents_map (f : ν → μ) (row : Row ν) :
    ((row.map f).filterMap fun cell? => cell?.map Cell.content) =
      (row.filterMap fun cell? => cell?.map Cell.content).map f := by
  induction row with
  | nil => rfl
  | cons cell? r ih =>
    cases cell? with
    | none => exact ih
    | some cell => exact congrArg (f cell.content :: ·) ih

theorem Table.contents_map (f : ν → μ) (t : Table ν) : (t.map f).contents = t.contents.map f := by
  rw [contents, contents, allRows_map, List.flatMap_map, List.map_flatMap]
  exact congrArg (t.allRows.flatMap ·) (funext (Row.contents_map f))

theorem Table.mem_contents_of_placed {t : Table ν} {a : ν} (h : a ∈ t.placed) : a ∈ t.contents := by
  obtain ⟨row, hr, ha⟩ := List.mem_flatMap.1 h
  obtain ⟨cell, hc, rfl⟩ := Row.mem_of_mem_placed ha
  exact List.mem_flatMap.2 ⟨row, hr, List.mem_filterMap.2 ⟨some cell, hc, rfl⟩⟩

namespace Node

def isWrapper : Node → Bool
  | singleChild _ => true
  | _ => false

def isParagraph : Node → Bool
  | paragraph _ => true
  | _ => false

/-- A kind of node around a list of nodes. -/
inductive Encloses : (List Node → Node) → Prop where
  | strong : Encloses strong
  | emphasize : Encloses emphasize
  | delete : Encloses delete
  | insert : Encloses insert
  | underline : Encloses underline
  | superscript : Encloses superscript
  | subscript : Encloses subscript
  | link (url : String) : Encloses (link url)
  | linkReference (label : String) : Encloses (linkReference label)
  | multimedia (items : List MediaItem) (alone : Bool) : Encloses fun c => multimedia items c alone
  | multimediaReference (label : String) (alone : Bool) : Encloses fun c => multimediaReference label c alone
  | abbreviation (title : String) : Encloses (abbreviation title)
  | paragraph : Encloses paragraph
  | header (level : UInt8) : Encloses (header level)
  | bulletList : Encloses bulletList
  | blockQuote : Encloses blockQuote
  | insertBlocks : Encloses insertBlocks
  | deleteBlocks : Encloses deleteBlocks
  | aligned (alignment : BlockAlignment) : Encloses (aligned alignment)
  | nestedBlock : Encloses nestedBlock
  | htmlBlock : Encloses htmlBlock

/-- The second node is the first with some of the wrappers at and below it replaced by the nodes in them, but none
that a standalone node is made of. -/
inductive Unwraps : Node → Node → Prop where
  | refl (n : Node) : Unwraps n n
  | unwrap {n m : Node} : Unwraps n m → Unwraps (singleChild n) m
  | wrapper {n m : Node} : Unwraps n m → Unwraps (singleChild n) (singleChild m)
  | around {f : List Node → Node} {c : List (Node × Node)} : Encloses f → (∀ a ∈ c, Unwraps a.1 a.2) →
    Unwraps (f (c.map Prod.fst)) (f (c.map Prod.snd))
  | numberedList {l : List (NumberedItem (Node × Node))} : (∀ i ∈ l, Unwraps i.child.1 i.child.2) →
    Unwraps (numberedList (l.map (NumberedItem.map Prod.fst))) (numberedList (l.map (NumberedItem.map Prod.snd)))
  | taskList {l : List (TaskItem (Node × Node))} : (∀ i ∈ l, Unwraps i.child.1 i.child.2) →
    Unwraps (taskList (l.map (TaskItem.map Prod.fst))) (taskList (l.map (TaskItem.map Prod.snd)))
  | definitionList {l : List (DefinitionGroup (Node × Node))} :
    (∀ g ∈ l, ∀ a ∈ g.terms ++ g.descriptions, Unwraps a.1 a.2) →
    Unwraps (definitionList (l.map (DefinitionGroup.map Prod.fst)))
      (definitionList (l.map (DefinitionGroup.map Prod.snd)))
  | table {t : Table (Node × Node)} : (∀ a ∈ t.contents, Unwraps a.1 a.2) →
    Unwraps (table (t.map Prod.fst)) (table (t.map Prod.snd))
  | standalone {n m : Node} : Unwraps n m → m.isWrapper = n.isWrapper → Unwraps (standalone n) (standalone m)

end Node

/-! ### Documents -/

structure Footnote.Unwraps (f f' : Footnote) : Prop where
  key : f'.key = f.key
  /-- The nodes of the content keep the wrappers that they are themselves. -/
  content : List.Forall₂ (fun n m => n.Unwraps m ∧ m.isWrapper = n.isWrapper) f.content f'.content

def Footnotes.Unwraps (t t' : Footnotes) : Prop := List.Forall₂ Footnote.Unwraps t.entries t'.entries

/-- The second document is the first with some of the wrappers in its nodes, in its footnotes and in the detail
document replaced by the nodes in them. -/
inductive Document.Unwraps : Document → Document → Prop where
  | plain {nodes nodes' : List Node} {footnotes footnotes' : Footnotes} (references : Directory MediaItem)
    (metadata : Metadata) : List.Forall₂ Node.Unwraps nodes nodes' → footnotes.Unwraps footnotes' →
    Unwraps ⟨nodes, footnotes, references, none, metadata⟩ ⟨nodes', footnotes', references, none, metadata⟩
  | detailed {nodes nodes' : List Node} {footnotes footnotes' : Footnotes} (references : Directory MediaItem)
    (metadata : Metadata) {detail detail' : Document} : List.Forall₂ Node.Unwraps nodes nodes' →
    footnotes.Unwraps footnotes' → Unwraps detail detail' →
    Unwraps ⟨nodes, footnotes, references, some detail, metadata⟩
      ⟨nodes', footnotes', references, some detail', metadata⟩

namespace Footnotes.Unwraps

theorem refl (t : Footnotes) : t.Unwraps t :=
  List.forall₂_same.2 fun _ _ => ⟨rfl, List.forall₂_same.2 fun n _ => ⟨.refl n, rfl⟩⟩

end Footnotes.Unwraps

namespace Document.Unwraps

theorem refl : (d : Document) → d.Unwraps d
  | ⟨_, footnotes, references, none, metadata⟩ =>
    .plain references metadata (List.forall₂_same.2 fun n _ => .refl n) (.refl footnotes)
  | ⟨_, footnotes, references, some detail, metadata⟩ =>
    .detailed references metadata (List.forall₂_same.2 fun n _ => .refl n) (.refl footnotes) (refl detail)

variable {d d' : Document} (h : d.Unwraps d')
include h

theorem nodes : List.Forall₂ Node.Unwraps d.nodes d'.nodes := by
  cases h <;> assumption

theorem footnotes : d.footnotes.Unwraps d'.footnotes := by
  cases h <;> assumption

theorem references_side (x : Bool) : (side (d, d') x).references = d.references := by
  cases h <;> cases x <;> rfl

theorem metadata_side (x : Bool) : (side (d, d') x).metadata = d.metadata := by
  cases h <;> cases x <;> rfl

end Document.Unwraps

/-! ### What nodes tell -/

namespace Node

/-- The node itself has a text, or is a reference to a footnote. -/
def speaks (n : Node) : Bool := n.ownText ≠ "" || n.footnoteLink?.isSome

/-- The nodes at and below some nodes that speak. -/
def spoken (l : List Node) : List Node := (walkAll l).filter speaks

theorem spoken_eq (l : List Node) : spoken l = l.flatMap fun n => spoken [n] := by
  simp only [spoken, walkAll_eq, List.filter_flatMap, List.flatMap_singleton]

theorem spoken_of_silent {n : Node} (h : n.speaks = false) : spoken [n] = spoken n.children := by
  rw [spoken, spoken, walkAll_eq, List.flatMap_singleton, walk_eq, ← walkAll_eq, List.filter_cons_of_neg]
  rw [h]
  exact Bool.false_ne_true

theorem footnoteLinks_eq (l : List Node) : footnoteLinks l = (spoken l).filterMap footnoteLink? := by
  rw [spoken, footnoteLinks, List.filterMap_filter]
  refine List.filterMap_congr fun n _ => ?_
  cases h : n.footnoteLink? with
  | none => rw [ite_self]
  | some link => rw [speaks, h, Option.isSome_some, Bool.or_true, if_pos rfl]

theorem plainText_eq (l : List Node) : plainText l = String.join ((spoken l).map ownText) := by
  rw [spoken, plainText]
  induction walkAll l with
  | nil => rfl
  | cons n r ih =>
    rw [List.map_cons, String.join_cons, ih, List.filter_cons]
    split
    · rw [List.map_cons, String.join_cons]
    · rename_i h
      have ht : n.ownText = "" := by
        by_contra hn
        simp [speaks, hn] at h
      rw [ht, String.empty_append]

end Node

namespace Node.Unwraps

variable {n m : Node} {c : List (Node × Node)}

/-! ### Margins -/

theorem isInline_eq (h : n.Unwraps m) : m.isInline = n.isInline := by
  induction h with
  | unwrap _ ih | wrapper _ ih => exact ih
  | @around f c hf _ ih =>
    cases hf with
    | nestedBlock =>
      have hc : (c.map Prod.snd).all isInline = (c.map Prod.fst).all isInline := by
        rw [Bool.eq_iff_iff, List.all_eq_true, List.all_eq_true, List.forall_mem_map, List.forall_mem_map]
        exact forall₂_congr fun a ha => by rw [ih a ha]
      rw [isInline_nestedBlock, isInline_nestedBlock, hc, List.isEmpty_map, List.isEmpty_map]
    | _ => rfl
  | _ => rfl

theorem isOutsideParagraph_eq (h : n.Unwraps m) : m.isOutsideParagraph = n.isOutsideParagraph := by
  induction h with
  | unwrap _ ih | wrapper _ ih => exact ih
  | around hf _ _ => cases hf <;> rfl
  | _ => rfl

theorem isInParagraph_eq (h : n.Unwraps m) : m.isInParagraph = n.isInParagraph := by
  rw [isInParagraph, isInParagraph, h.isInline_eq, h.isOutsideParagraph_eq]

theorem margins_eq (h : n.Unwraps m) : m.margins = n.margins := by
  induction h with
  | refl n => rfl
  | unwrap _ ih => exact ih.trans (margins_singleChild _).symm
  | wrapper _ ih => rw [margins_singleChild, margins_singleChild, ih]
  | @around f c hf hc ih =>
    have hp := (Unwraps.around hf hc).isInParagraph_eq
    cases hf with
    | nestedBlock =>
      have hm : (c.map Prod.snd).map margins = (c.map Prod.fst).map margins := by
        rw [List.map_map, List.map_map]
        exact List.map_congr_left ih
      rw [margins, margins, hp, firstMargins_eq, firstMargins_eq, lastMargins_eq, lastMargins_eq, hm]
    | _ => simp only [margins, hp]
  | _ => rfl

theorem isInline_side (h : n.Unwraps m) (x : Bool) : (side (n, m) x).isInline = n.isInline := side_eq h.isInline_eq x

theorem margins_side (h : n.Unwraps m) (x : Bool) : (side (n, m) x).margins = n.margins := side_eq h.margins_eq x

/-- If wrappers at the top are kept, paragraphs are, and there are no others. -/
theorem paragraph_cases (h : n.Unwraps m) (hw : m.isWrapper = n.isWrapper) :
    (∃ c : List (Node × Node), n = paragraph (c.map Prod.fst) ∧ m = paragraph (c.map Prod.snd) ∧
      ∀ a ∈ c, a.1.Unwraps a.2) ∨ n.isParagraph = false ∧ m.isParagraph = false := by
  cases h with
  | refl =>
    cases n with
    | paragraph l =>
      refine .inl ⟨l.map fun n => (n, n), ?_, ?_, List.forall_mem_map.2 fun n _ => .refl n⟩ <;>
        simp only [List.map_map, Function.comp_def, List.map_id']
    | _ => exact .inr ⟨rfl, rfl⟩
  | unwrap _ =>
    cases m with
    | singleChild _ => exact .inr ⟨rfl, rfl⟩
    | _ => cases hw
  | @around f c hf hc =>
    cases hf with
    | paragraph => exact .inl ⟨c, rfl, rfl, hc⟩
    | _ => exact .inr ⟨rfl, rfl⟩
  | _ => exact .inr ⟨rfl, rfl⟩

/-! ### Texts and references -/

theorem spoken_congr (h : ∀ a ∈ c, spoken [a.2] = spoken [a.1]) :
    spoken (c.map Prod.snd) = spoken (c.map Prod.fst) := by
  rw [spoken_eq, spoken_eq (c.map Prod.fst), List.flatMap_map, List.flatMap_map]
  exact List.flatMap_congr h

/-- Two silent nodes say the same if their children do. -/
theorem spoken_children (hn : n.speaks = false) (hm : m.speaks = false) (hl : n.children = c.map Prod.fst)
    (hl' : m.children = c.map Prod.snd) (h : ∀ a ∈ c, spoken [a.2] = spoken [a.1]) : spoken [m] = spoken [n] := by
  rw [spoken_of_silent hm, spoken_of_silent hn, hl, hl', spoken_congr h]

theorem spoken_eq (h : n.Unwraps m) : spoken [m] = spoken [n] := by
  induction h with
  | refl n => rfl
  | @unwrap n m _ ih => exact ih.trans (spoken_of_silent (n := singleChild n) rfl).symm
  | @wrapper n m _ ih | @standalone n m _ _ ih =>
    exact spoken_children (c := [(n, m)]) rfl rfl rfl rfl (List.forall_mem_singleton.2 ih)
  | @around f c hf _ ih => cases hf <;> exact spoken_children (c := c) rfl rfl rfl rfl ih
  | @numberedList items _ ih =>
    have hl (f : Node × Node → Node) : (Node.numberedList (items.map (NumberedItem.map f))).children =
        (items.map NumberedItem.child).map f := by
      rw [children, List.map_map, List.map_map]
      rfl
    exact spoken_children rfl rfl (hl Prod.fst) (hl Prod.snd) (List.forall_mem_map.2 ih)
  | @taskList items _ ih =>
    have hl (f : Node × Node → Node) : (Node.taskList (items.map (TaskItem.map f))).children =
        (items.map TaskItem.child).map f := by
      rw [children, List.map_map, List.map_map]
      rfl
    exact spoken_children rfl rfl (hl Prod.fst) (hl Prod.snd) (List.forall_mem_map.2 ih)
  | @definitionList groups _ ih =>
    have hl (f : Node × Node → Node) : (Node.definitionList (groups.map (DefinitionGroup.map f))).children =
        (groups.flatMap fun g => g.terms ++ g.descriptions).map f := by
      simp only [children, List.flatMap_map, List.map_flatMap, DefinitionGroup.map, List.map_append]
    refine spoken_children rfl rfl (hl Prod.fst) (hl Prod.snd) fun a ha => ?_
    obtain ⟨g, hg, ha⟩ := List.mem_flatMap.1 ha
    exact ih g hg a ha
  | @table t _ ih => exact spoken_children rfl rfl (t.contents_map Prod.fst) (t.contents_map Prod.snd) ih

end Node.Unwraps

/-! ### Lists of nodes -/

/-- Two lists related node by node are the sides of a list of pairs. -/
theorem exists_pairs {R : ν → ν → Prop} {l l' : List ν} (h : List.Forall₂ R l l') :
    ∃ c : List (ν × ν), c.map Prod.fst = l ∧ c.map Prod.snd = l' ∧ ∀ a ∈ c, R a.1 a.2 := by
  induction h with
  | nil => exact ⟨[], rfl, rfl, fun a ha => (List.not_mem_nil ha).elim⟩
  | @cons n m l l' hn _ ih =>
    obtain ⟨c, rfl, rfl, hc⟩ := ih
    exact ⟨(n, m) :: c, rfl, rfl, List.forall_mem_cons.2 ⟨hn, hc⟩⟩

theorem Node.Unwraps.enclosed {f : List Node → Node} (hf : Encloses f) {l l' : List Node}
    (h : List.Forall₂ Unwraps l l') : (f l).Unwraps (f l') := by
  obtain ⟨c, rfl, rfl, hc⟩ := exists_pairs h
  exact .around hf hc

section

variable {c : List (Node × Node)} (h : ∀ a ∈ c, a.1.Unwraps a.2)
include h

theorem plainText_side (x : Bool) : Node.plainText (c.map (side · x)) = Node.plainText (c.map Prod.fst) := by
  cases x with
  | false => rfl
  | true =>
    show Node.plainText (c.map Prod.snd) = _
    rw [Node.plainText_eq, Node.plainText_eq, Node.Unwraps.spoken_congr fun a ha => (h a ha).spoken_eq]

theorem footnoteLinks_unwraps : Node.footnoteLinks (c.map Prod.snd) = Node.footnoteLinks (c.map Prod.fst) := by
  rw [Node.footnoteLinks_eq, Node.footnoteLinks_eq, Node.Unwraps.spoken_congr fun a ha => (h a ha).spoken_eq]

end

/-! ### Footnotes -/

theorem Footnote.Unwraps.links_eq {f f' : Footnote} (h : f.Unwraps f') :
    Node.footnoteLinks f'.content = Node.footnoteLinks f.content := by
  obtain ⟨c, hc, hc', hu⟩ := exists_pairs h.content
  rw [← hc, ← hc', footnoteLinks_unwraps fun a ha => (hu a ha).1]

namespace Footnotes.Unwraps

variable {t t' : Footnotes} (h : t.Unwraps t')
include h

/-- What a key is declared to be in the two tables. -/
theorem get?_cases (key : String) : (t.get? key = none ∧ t'.get? key = none) ∨
    ∃ f f', t.get? key = some f ∧ t'.get? key = some f' ∧ f.Unwraps f' := by
  obtain ⟨entries⟩ := t
  obtain ⟨entries'⟩ := t'
  replace h : List.Forall₂ Footnote.Unwraps entries entries' := h
  rw [get?, get?]
  induction h with
  | nil => exact .inl ⟨rfl, rfl⟩
  | @cons f f' l l' hf _ ih =>
    rw [List.find?_cons, List.find?_cons, hf.key]
    cases decide (f.key = key) with
    | true => exact .inr ⟨f, f', rfl, rfl, hf⟩
    | false => exact ih

theorem get?_side (key : String) : (∀ x, (side (t, t') x).get? key = none) ∨
    ∃ (k : String) (c : List (Node × Node)), (∀ x, (side (t, t') x).get? key = some ⟨k, c.map (side · x)⟩) ∧
      ∀ a ∈ c, a.1.Unwraps a.2 ∧ a.2.isWrapper = a.1.isWrapper := by
  obtain ⟨ht, ht'⟩ | ⟨⟨k, l⟩, ⟨k', l'⟩, ht, ht', hf⟩ := h.get?_cases key
  · refine .inl fun x => ?_
    cases x
    · exact ht
    · exact ht'
  · obtain ⟨c, rfl, rfl, hc⟩ := exists_pairs hf.content
    obtain rfl : k' = k := hf.key
    refine .inr ⟨k', c, fun x => ?_, hc⟩
    cases x
    · exact ht
    · exact ht'

theorem isSome_side (key : String) (x : Bool) : ((side (t, t') x).get? key).isSome = (t.get? key).isSome := by
  obtain ht | ⟨k, c, ht, -⟩ := h.get?_side key
  · rw [ht, show t.get? key = none from ht false]
  · rw [ht, show t.get? key = some _ from ht false, Option.isSome_some, Option.isSome_some]

theorem size_eq : t'.size = t.size := (List.Forall₂.length_eq h).symm

theorem size_side (x : Bool) : (side (t, t') x).size = t.size := side_eq h.size_eq x

theorem scan_eq (levels : Nat) (l : List FootnoteLink) (s : Scan) : t'.scan levels l s = t.scan levels l s := by
  induction levels generalizing l s with
  | zero =>
    rw [scan, scan]
    congr
    funext s link
    obtain ⟨ht, ht'⟩ | ⟨f, f', ht, ht', -⟩ := h.get?_cases link.key
    · rw [ht, ht']
    · rw [ht, ht']
  | succ levels ih =>
    rw [scan, scan]
    congr
    funext s link
    obtain ⟨ht, ht'⟩ | ⟨f, f', ht, ht', hf⟩ := h.get?_cases link.key
    · rw [ht, ht']
    · simp only [ht, ht', hf.links_eq, ih]

theorem numberContent_eq (key : String) (n : Numbering) : t'.numberContent key n = t.numberContent key n := by
  obtain ⟨ht, ht'⟩ | ⟨f, f', ht, ht', hf⟩ := h.get?_cases key
  · rw [numberContent, numberContent, ht, ht']
  · simp only [numberContent, ht, ht', hf.links_eq, h.size_eq, h.scan_eq]

theorem numberFrom_eq (steps index : Nat) (n : Numbering) :
    t'.numberFrom steps index n = t.numberFrom steps index n := by
  induction steps generalizing index n with
  | zero => rfl
  | succ steps ih =>
    rw [numberFrom, numberFrom]
    cases n.keys[index]? with
    | none => rfl
    | some key => exact (ih _ _).trans (by rw [h.numberContent_eq])

theorem numberNested_eq (n : Numbering) : t'.numberNested n = t.numberNested n := by
  rw [numberNested, numberNested, h.size_eq, h.numberFrom_eq]

theorem numberNested_side (n : Numbering) (x : Bool) : (side (t, t') x).numberNested n = t.numberNested n :=
  side_eq (f := (numberNested · n)) (h.numberNested_eq n) x

end Footnotes.Unwraps

end XamlDoc
