import XamlDoc.Proofs.Document.Wrappers
import XamlDoc.Proofs.Render.Cancellation

/-!
# Wrappers in labels

A wrapper gives the HTML of the node in it. Nodes in which wrappers are replaced by the nodes in them give the same
HTML and the same numbers to footnotes, as long as nobody from outside counts the nodes until the token is fired.
-/

namespace XamlDoc

/-- Nothing outside fires the token later than at the next node. -/
structure Traversal.Decided (t : Traversal) : Prop where
  watch : t.watch = .always
  fuse? : t.fuse? = none ∨ t.fuse? = some 0

theorem Traversal.Decided.tick_eq {t : Traversal} (h : t.Decided) (hs : t.stops = false) : t.tick = t := by
  obtain ⟨numbering, cancelled, fuse?, watch⟩ := t
  obtain ⟨rfl, rfl | rfl⟩ := h
  · rfl
  · cases hs

namespace Html

/-- Two passes that do the same, and do not let anything outside fire the token later. -/
def Matched (α : Type) (m : Bool → Pass α) (_ : List String) : Prop :=
  ∀ t : Traversal, t.Decided → m true t = m false t ∧ ∀ a u, m false t = .ok (a, u) → u.Decided

namespace Matched

variable {α : Type} {k : List String}

theorem step {m : Pass α} (h : Step α m) : Matched α (fun _ => m) k := by
  refine fun t ht => ⟨rfl, fun a u hu => ?_⟩
  cases h with
  | look =>
    replace hu : visit (pure ()) t = .ok (a, u) := hu
    rw [visit_apply] at hu
    split at hu
    · cases hu
    · rename_i hs
      cases hu
      rwa [ht.tick_eq (Bool.eq_false_iff.2 hs)]
  | _ =>
    cases hu
    exact ⟨ht.watch, ht.fuse?⟩

theorem abreast : Abreast Matched := by
  refine .ofSteps step fun {_ _ m f _ _} hm hf t ht => ?_
  obtain ⟨he, hd⟩ := hm t ht
  show (m true >>= f true) t = (m false >>= f false) t ∧ ∀ b v, (m false >>= f false) t = .ok (b, v) → v.Decided
  rw [bind_apply, bind_apply, he]
  cases hr : m false t with
  | ok r => exact hf r.1 r.2 (hd r.1 r.2 hr)
  | error halt => exact ⟨rfl, fun _ _ h => by cases h⟩

/-- The first pass may be another one that does the same. -/
theorem before {m m' : Bool → Pass α} (hm : Matched α m k) (hs : m' true = m true)
    (hf : ∀ t : Traversal, t.Decided → m' false t = m false t) : Matched α m' k := by
  intro t ht
  rw [hs, hf t ht]
  exact hm t ht

theorem throw (halt : Halt) : Matched α (fun _ => throw halt) k := fun _ _ => ⟨rfl, fun _ _ h => by cases h⟩

theorem inOrder {ν : Type} {items : List ν} {f : Bool → ν → Part}
    (hf : ∀ i ∈ items, Matched _ (fun x => f x i) []) : Matched _ (fun x => inOrder (items.map (f x))) [] :=
  abreast.inOrder (g := fun _ => []) hf

end Matched

theorem node_singleChild (s : Scope) (n : Node) {t : Traversal} (ht : t.Decided) :
    node s (.singleChild n) t = node s n t := by
  cases hs : t.stops with
  | true => rw [node_refused s _ hs, node_refused s _ hs]
  | false => rw [node, visit_apply, hs, if_neg Bool.false_ne_true, ht.tick_eq hs]

theorem footnoteContent_cons (s : Scope) {n : Node} (hn : n.isParagraph = false) (r : List Node) :
    footnoteContent s (n :: r) = (do
      let first ← node s n
      pure (first ++ (← footnoteContent s r))) := by
  cases n with
  | paragraph l => cases hn
  | _ => rfl

namespace Matched

/-! ### Nodes -/

section

variable {s : Bool → Scope} {D : Document} (hs : Together (fun _ => .unlimited) Matched D (fun _ => True) s fun _ => [])

theorem nodes {c : List (Node × Node)} (hc : ∀ a ∈ c, Matched _ (fun x => node (s x) (side a x)) []) :
    Matched _ (fun x => nodes (s x) (c.map (side · x))) [] := by
  induction c with
  | nil => exact abreast.done []
  | cons a r ih =>
    refine abreast.andThen (k := []) (hc a (List.mem_cons_self ..)) fun _ => ?_
    exact abreast.map (ih fun b hb => hc b (List.mem_cons_of_mem a hb)) fun _ => abreast.done _

include hs

/-- Nodes give the same HTML when wrappers in them are replaced. -/
theorem node {n m : Node} (h : n.Unwraps m) : Matched _ (fun x => node (s x) (side (n, m) x)) [] := by
  induction h with
  | refl n =>
    simp only [side_same]
    exact hs.node abreast (c := ⟨fun _ => false, D.references⟩) rfl n.throughout_true
  | @unwrap n m _ ih => exact ih.before rfl fun t ht => node_singleChild (s false) n ht
  | wrapper _ ih =>
    simp only [side_pair Node.singleChild]
    exact abreast.visit ih
  | standalone _ _ ih =>
    simp only [side_pair Node.standalone]
    exact abreast.visit ih
  | @around f c hf hu ih =>
    have hc := nodes ih
    simp only [side_pairs fun p => f (c.map p)]
    cases hf with
    | strong | emphasize | delete | insert | underline | superscript | subscript | link _ | abbreviation _
    | paragraph | header _ | blockQuote | insertBlocks | deleteBlocks | aligned _ =>
      exact abreast.visit (abreast.wrapped hc _ _)
    | linkReference label =>
      simp only [Html.node, hs.references]
      refine abreast.visit ?_
      split
      · exact abreast.wrapped hc _ _
      · exact hc
    | multimedia items alone =>
      cases items with
      | nil => exact abreast.visit hc
      | cons item r =>
        simp only [Html.node, plainText_side hu]
        exact abreast.visit (abreast.done _)
    | multimediaReference label alone =>
      simp only [Html.node, hs.references, plainText_side hu]
      refine abreast.visit ?_
      split
      · exact abreast.done _
      · exact hc
    | bulletList =>
      simp only [Html.node, each_eq, List.map_map]
      exact abreast.visit (abreast.wrapped (inOrder fun a ha => abreast.wrapped (ih a ha) .li []) _ _)
    | nestedBlock | htmlBlock => exact abreast.visit hc
  | @numberedList items _ ih =>
    simp only [side_pairs fun p => Node.numberedList (items.map (NumberedItem.map p)), Html.node, numbered_eq,
      List.map_map]
    exact abreast.visit (abreast.wrapped (inOrder fun i hi => abreast.wrapped (ih i hi) _ _) _ _)
  | @taskList items _ ih =>
    simp only [side_pairs fun p => Node.taskList (items.map (TaskItem.map p)), Html.node, tasks_eq, List.map_map]
    refine abreast.visit (abreast.wrapped (inOrder fun i hi => ?_) _ _)
    exact abreast.wrapped (abreast.map (ih i hi) fun _ => abreast.done _) _ _
  | @definitionList groups _ ih =>
    simp only [side_pairs fun p => Node.definitionList (groups.map (DefinitionGroup.map p)), Html.node, groups_eq,
      List.map_map]
    refine abreast.visit (abreast.wrapped (inOrder fun g hg => ?_) _ _)
    simp only [Function.comp_apply, definitionGroup, DefinitionGroup.map, List.map_map]
    refine abreast.andThen (k := []) ?_ fun _ => abreast.map ?_ fun _ => abreast.done _
    · exact inOrder fun a ha => abreast.wrapped (ih g hg a (List.mem_append_left _ ha)) _ _
    · exact inOrder fun a ha => abreast.wrapped (ih g hg a (List.mem_append_right _ ha)) _ _
  | @table t _ ih =>
    simp only [side_pairs fun p => Node.table (t.map p), node_table, Table.map_map]
    exact abreast.visit (abreast.table (g := fun _ => []) fun a ha => ih a (Table.mem_contents_of_placed ha))

theorem all {c : List (Node × Node)} (hc : ∀ a ∈ c, a.1.Unwraps a.2) :
    Matched _ (fun x => Html.nodes (s x) (c.map (side · x))) [] := nodes fun a ha => node hs (hc a ha)

/-- Footnotes lose the bounds of their paragraphs, but not those of wrappers around paragraphs. -/
theorem footnoteContent {c : List (Node × Node)}
    (hc : ∀ a ∈ c, a.1.Unwraps a.2 ∧ a.2.isWrapper = a.1.isWrapper) :
    Matched _ (fun x => footnoteContent (s x) (c.map (side · x))) [] := by
  induction c with
  | nil => exact abreast.done []
  | cons a r ih =>
    obtain ⟨⟨ha, hw⟩, hr⟩ := List.forall_mem_cons.1 hc
    obtain ⟨n, m⟩ := a
    have hrest {first : Bool → Part} (hf : Matched _ first []) : Matched _ (fun x => do
        let fragments ← first x
        pure (fragments ++ (← Html.footnoteContent (s x) (r.map (side · x))))) [] :=
      abreast.andThen (k := []) hf fun _ => abreast.map (ih hr) fun _ => abreast.done _
    obtain ⟨l, rfl, rfl, hl⟩ | ⟨hn, hm⟩ := ha.paragraph_cases hw
    · simp only [List.map_cons, side_pairs fun p => Node.paragraph (l.map p)]
      exact hrest (all hs hl)
    · have hp (x : Bool) : (side (n, m) x).isParagraph = false := (side_eq (hm.trans hn.symm) x).trans hn
      simp only [List.map_cons, footnoteContent_cons _ (hp _)]
      exact hrest (node hs ha)

end

/-! ### Scopes -/

variable (evaluator? : Option Evaluator) (profile : Profile)

theorem expanding {nested : Document → Part} {D D' : Document} (h : D.Unwraps D')
    (hn : ∀ d, Matched _ (fun _ => nested d) []) (levels : Nat) (expanding : List String) :
    Together (fun _ => .unlimited) Matched D (fun _ => True)
      (fun x => Scope.expanding ⟨evaluator?, profile, side (D, D') x, fun _ => none, nested⟩ levels expanding)
      fun _ => [] := by
  let s (levels : Nat) (expanding : List String) (x : Bool) : Scope :=
    Scope.expanding ⟨evaluator?, profile, side (D, D') x, fun _ => none, nested⟩ levels expanding
  have hd (levels : Nat) (expanding : List String) (x : Bool) :
      (s levels expanding x).document = side (D, D') x := expanding_document ..
  have script (levels : Nat) (expanding : List String) (expression : String) :
      Matched _ (fun x => script (s levels expanding x) expression) [] := by
    have hs (x : Bool) : (s levels expanding x).nested = nested := expanding_nested ..
    have he (x : Bool) : (s levels expanding x).evaluator? = evaluator? := expanding_evaluator? ..
    have hp (x : Bool) : (s levels expanding x).profile = profile := by
      cases levels <;> rfl
    refine abreast.script he hp (fun _ d _ _ => ?_) fun _ _ _ => step (.cancel _)
    simp only [hs]
    exact hn d
  have together (levels : Nat) (expanding : List String) (hr : ∀ key autoExpand,
      Matched _ (fun x => footnoteReference (s levels expanding x) key autoExpand) []) :
      Together (fun _ => .unlimited) Matched D (fun _ => True) (s levels expanding) fun _ => [] :=
    ⟨fun x => by rw [hd, h.references_side], fun x => by rw [hd, h.metadata_side], hr,
      fun {e _} _ => script levels expanding e, fun _ ht => abreast.table ht⟩
  have hf (levels : Nat) (expanding : List String) (key : String) (x : Bool) :
      ((s levels expanding x).document.footnotes.get? key).isSome = (D.footnotes.get? key).isSome := by
    rw [hd, ← side_pair Document.footnotes, h.footnotes.isSome_side]
  induction levels generalizing expanding with
  | zero =>
    refine together 0 expanding fun key autoExpand => ?_
    exact abreast.declaredReference (hf 0 expanding key) (step (.reference key)) (.inl fun _ => rfl) autoExpand
  | succ levels ih =>
    refine together (levels + 1) expanding fun key autoExpand => ?_
    refine abreast.declaredReference (hf _ expanding key) (step (.reference key)) ?_ autoExpand
    simp only [s, inPlace_expanding, ← side_pair Document.footnotes]
    split
    · exact .inl fun _ => rfl
    · obtain hf | ⟨k, c, hf, hc⟩ := h.footnotes.get?_side key
      · exact .inl fun x => by rw [hf, Option.map_none]
      · exact .inr ⟨_, fun x => by rw [hf, Option.map_some], footnoteContent (ih (key :: expanding)) hc⟩

theorem nestedDocument (limit : Nat) (D : Document) :
    Matched _ (fun _ => nestedDocument evaluator? profile limit D) [] := by
  induction limit generalizing D with
  | zero => exact throw .tooDeep
  | succ limit ih =>
    have hs := expanding evaluator? profile (.refl D) ih D.footnotes.size []
    simp only [side_same] at hs
    exact abreast.ownNumbers step
      (hs.all abreast (c := ⟨fun _ => false, D.references⟩) rfl fun n _ => n.throughout_true)

end Matched

end Html

end XamlDoc
