import XamlDoc.Proofs.Document.Strings
import XamlDoc.Proofs.Footnote.Basic
import XamlDoc.Proofs.Html.Yields
import XamlDoc.Proofs.Markup.Characters

/-!
# Characters of HTML

The HTML of nodes is spelled in every alphabet in which the strings of the document are spelled and that has the
characters of its numeric entities.
-/

namespace XamlDoc

namespace Alphabet

variable {A : Alphabet}

/-! ### Documents -/

/-- What stands in the node itself is spelled in the alphabet. -/
structure SpellsNode (A : Alphabet) (n : Node) : Prop where
  strings : ∀ s ∈ n.strings, A.Spells s
  code : ∀ code, n.code? = some code → ∀ c, Html.charOfCode? code = some c → A.Has c

/-- What stands in the document is spelled in the alphabet; nothing is said about its detail document. -/
structure SpellsDocument (A : Alphabet) (d : Document) : Prop where
  nodes : ∀ n ∈ Node.walkAll d.nodes, A.SpellsNode n
  footnotes : ∀ f ∈ d.footnotes.entries, ∀ n ∈ Node.walkAll f.content, A.SpellsNode n
  references {label : String} {item : MediaItem} :
    d.references.get? label = some item → ∀ s ∈ item.strings, A.Spells s
  metadata {key value : String} : d.metadata.joined? key = some value → A.Spells value

theorem spellsDocument_of_strings {d : Document} (hs : ∀ s ∈ d.strings, A.Spells s)
    (hc : ∀ code ∈ d.codes, ∀ c, Html.charOfCode? code = some c → A.Has c) :
    ∀ e ∈ d.layers, A.SpellsDocument e := by
  intro e he
  have hs : ∀ s ∈ _, A.Spells s := fun s h => hs s (List.mem_flatMap.2 ⟨e, he, h⟩)
  simp only [List.forall_mem_append] at hs
  obtain ⟨⟨⟨hnodes, -⟩, hreferences⟩, hmetadata⟩ := hs
  have hn (n : Node) (hn : n ∈ e.allNodes) : A.SpellsNode n :=
    ⟨fun s h => hnodes s (List.mem_flatMap.2 ⟨n, hn, h⟩),
      fun code h => hc code (List.mem_flatMap.2 ⟨e, he, List.mem_filterMap.2 ⟨n, hn, h⟩⟩)⟩
  refine ⟨fun n h => hn n (List.mem_append_left _ h), fun f hf n h => hn n ?_, fun {label} {item} hr s h => ?_,
    fun {key} {value} hm => ?_⟩
  · exact List.mem_append_right _ (List.mem_flatMap.2 ⟨f, hf, h⟩)
  · obtain ⟨l, r, hl, -⟩ := List.lookup_eq_some_iff.1 hr
    have hmem : (label, item) ∈ e.references.entries := by rw [hl]; simp
    exact hreferences s (List.mem_flatMap.2 ⟨_, hmem, List.mem_cons_of_mem _ h⟩)
  · obtain ⟨values, hv, rfl⟩ := Option.map_eq_some_iff.1 hm
    obtain ⟨l, r, hl, -⟩ := List.lookup_eq_some_iff.1 hv
    have hmem : (key, values) ∈ e.metadata.values.entries := by rw [hl]; simp
    exact spells_joined (spells_literal rfl) fun s h =>
      hmetadata s (List.mem_flatMap.2 ⟨_, hmem, List.mem_cons_of_mem _ h⟩)

/-! ### Named entities -/

theorem spells_char {c : Char} : A.Spells c.toString ↔ A.Has c := by
  have h : c.toString.toList = [c] := by simp [Char.toString]
  rw [Spells, h, List.forall_mem_singleton]

theorem spells_entityText {name : String} (h : A.Spells name) : A.Spells (Html.entityText name) := by
  unfold Html.entityText Html.namedChar?
  cases hn : Html.namedChars.lookup name with
  | none => exact spells_between (spells_literal rfl) (spells_literal rfl) h
  | some c =>
    obtain ⟨l, r, hl, -⟩ := List.lookup_eq_some_iff.1 hn
    have hall : (Html.namedChars.map Prod.snd).all Markup.Xml.isAllowed = true := by decide
    exact spells_char.2 (A.allowed (List.all_eq_true.1 hall c (by rw [hl]; simp)))

/-! ### Fragments -/

open Html (Attributes AttributeName Fragment Part Scope Yields attributesMarkup markupAll)

def SpellsFragments (A : Alphabet) (l : List Fragment) : Prop := A.Spells (markupAll l)

def SpellsValues (A : Alphabet) (a : Attributes) : Prop := ∀ e ∈ a, A.Spells e.2

theorem spells_tagName (t : Html.Tag) : A.Spells t.name := by cases t <;> exact spells_literal rfl

theorem spells_attributesMarkup {a : Attributes} (h : A.SpellsValues a) : A.Spells (attributesMarkup a) := by
  induction a with
  | nil => exact spells_empty
  | cons e r ih =>
    have hn : A.Spells e.1.text := by cases e.1 <;> exact spells_literal rfl
    have hv := spells_htmlEscape (h e (List.mem_cons_self ..))
    have hr := ih fun d hd => h d (List.mem_cons_of_mem e hd)
    simp only [attributesMarkup, spells_append]
    exact ⟨⟨⟨⟨⟨spells_literal rfl, hn⟩, spells_literal rfl⟩, hv⟩, spells_literal rfl⟩, hr⟩

theorem spells_markupAll_append {l r : List Fragment} :
    A.SpellsFragments (l ++ r) ↔ A.SpellsFragments l ∧ A.SpellsFragments r := by
  induction l with
  | nil => exact ⟨fun h => ⟨spells_empty, h⟩, And.right⟩
  | cons f l ih =>
    have hc (l : List Fragment) : A.SpellsFragments (f :: l) ↔ A.Spells f.markup ∧ A.SpellsFragments l :=
      spells_append
    rw [List.cons_append, hc, hc, ih, and_assoc]

theorem spellsFragments_singleton {f : Fragment} : A.SpellsFragments [f] ↔ A.Spells f.markup := by
  show A.Spells (f.markup ++ "") ↔ _
  rw [String.append_empty]

theorem spells_element (t : Html.Tag) {a : Attributes} {l : List Fragment} (ha : A.SpellsValues a)
    (hl : A.SpellsFragments l) : A.SpellsFragments [.element t a l] := by
  refine spellsFragments_singleton.2 ?_
  simp only [Fragment.markup, spells_append]
  have ht := spells_tagName (A := A) t
  exact ⟨⟨⟨⟨⟨⟨⟨spells_literal rfl, ht⟩, spells_attributesMarkup ha⟩, spells_literal rfl⟩, hl⟩, spells_literal rfl⟩,
    ht⟩, spells_literal rfl⟩

theorem spells_void (t : Html.VoidTag) {a : Attributes} (ha : A.SpellsValues a) :
    A.SpellsFragments [.void t a] := by
  have ht : A.Spells t.name := by cases t <;> exact spells_literal rfl
  refine spellsFragments_singleton.2 ?_
  simp only [Fragment.markup, spells_append]
  exact ⟨⟨⟨spells_literal rfl, ht⟩, spells_attributesMarkup ha⟩, spells_literal rfl⟩

theorem spells_textFragment {t : String} (h : A.Spells t) : A.SpellsFragments [.text t] :=
  spellsFragments_singleton.2 (spells_htmlEscape h)

theorem spells_htmlComment {t : String} (h : A.Spells t) : A.SpellsFragments [.comment t] := by
  refine spellsFragments_singleton.2 (spells_between (spells_literal rfl) (spells_literal rfl) ?_)
  exact spells_ofList.2 (has_spreadOnce h)

theorem shaped_spellsFragments : Html.Shaped A.SpellsFragments A.SpellsValues where
  nil := spells_empty
  append hl hr := spells_markupAll_append.2 ⟨hl, hr⟩
  element t _ _ ha hl := spells_element t ha hl
  none := List.forall_mem_nil _
  number name n := fun e he => by
    rw [List.mem_singleton.1 he]
    exact spells_nat n

theorem spellsValues_nil : A.SpellsValues [] := shaped_spellsFragments.none

theorem spellsValues_cons {name : AttributeName} {value : String} {a : Attributes} :
    A.SpellsValues ((name, value) :: a) ↔ A.Spells value ∧ A.SpellsValues a := List.forall_mem_cons

theorem spells_codeText {code : String} (h : A.Spells code) : A.SpellsFragments [Html.codeText code] :=
  spells_element _ spellsValues_nil (spells_textFragment h)

theorem spells_link {url : String} {l : List Fragment} (hu : A.Spells url) (hl : A.SpellsFragments l) :
    A.SpellsFragments [Html.link url l] :=
  spells_element _ (spellsValues_cons.2 ⟨hu, spellsValues_nil⟩) hl

theorem spells_footnoteNumber (n : Nat) : A.SpellsFragments [Html.footnoteNumber n] :=
  spells_element _ spellsValues_nil
    (spells_link (spells_append.2 ⟨spells_literal rfl, spells_nat n⟩) (spells_textFragment (spells_nat n)))

theorem spells_image {item : MediaItem} (h : ∀ s ∈ item.strings, A.Spells s) {alt : String} (ha : A.Spells alt) :
    A.SpellsFragments [Html.image item alt] := by
  refine spells_void _ ?_
  simp only [MediaItem.strings, List.forall_mem_cons, List.forall_mem_append, Option.mem_toList] at h
  obtain ⟨hu, ht, -⟩ := h
  intro e he
  simp only [List.mem_append, List.mem_cons, List.not_mem_nil, or_false, Option.mem_toList, Option.map_eq_some_iff]
    at he
  rcases he with (((rfl | rfl) | ⟨t, h, rfl⟩) | ⟨w, -, rfl⟩) | ⟨w, -, rfl⟩
  · exact hu
  · exact ha
  · exact ht t h
  · exact spells_nat _
  · exact spells_nat _

/-! ### Nodes -/

theorem spells_plainText {l : List Node} (h : ∀ n ∈ Node.walkAll l, A.SpellsNode n) : A.Spells (Node.plainText l) := by
  refine spells_join fun s hs => ?_
  obtain ⟨n, hn, rfl⟩ := List.mem_map.1 hs
  have hn := (h n hn).strings
  cases n with
  | text t | inlineCode t | hashTag t | autoLinkUrl t | autoLinkMail t => exact hn t (List.mem_singleton_self _)
  | emoji e => exact hn e.unicode (List.mem_cons_of_mem _ (List.mem_singleton_self _))
  | lineBreak => exact spells_literal rfl
  | _ => exact spells_empty

section Nodes

variable {s : Scope} (he : s.evaluator? = none) (hd : A.SpellsDocument s.document)
  (hp : ∀ key content, s.inPlace key = some content → Yields A.SpellsFragments content)

include hp in
theorem spells_footnoteReference (key : String) (autoExpand : Bool) :
    Yields A.SpellsFragments (Html.footnoteReference s key autoExpand) := by
  unfold Html.footnoteReference
  split
  · exact .done spells_empty
  · split
    · rename_i content hc
      cases autoExpand with
      | true => exact hp key content hc
      | false => cases hc
    · exact (Yields.any _).andThen fun number _ => .done (spells_footnoteNumber number)

include hd in
theorem spells_htmlMetaText (key : String) : A.SpellsFragments (Html.metaText s key) := by
  unfold Html.metaText
  cases h : s.document.metadata.joined? key with
  | none => exact spells_empty
  | some value => exact spells_textFragment (hd.metadata h)

include he hd hp in
theorem spells_html_of_children {n : Node} (hn : ∀ m ∈ n.walk, A.SpellsNode m)
    (h : ∀ m ∈ n.children, Yields A.SpellsFragments (Html.node s m)) : Yields A.SpellsFragments (Html.node s n) := by
  have shaped := shaped_spellsFragments (A := A)
  have all {c : List Node} (hc : ∀ m ∈ c, m ∈ n.children) := shaped.nodes fun m hm => h m (hc m hm)
  have own := (hn n n.self_mem_walk).strings
  have below : ∀ m ∈ n.children.flatMap Node.walk, A.SpellsNode m := fun m hm =>
    hn m (by rw [Node.walk_eq]; exact List.mem_cons_of_mem n hm)
  have nil := spellsValues_nil (A := A)
  cases n with
  | text t | hashTag t => exact (Yields.done (spells_textFragment (own t (List.mem_singleton_self _)))).visit
  | inlineCode t => exact (Yields.done (spells_codeText (own t (List.mem_singleton_self _)))).visit
  | strong c | emphasize c | delete c | insert c | underline c | superscript c | subscript c | paragraph c
  | header _ c | blockQuote c | insertBlocks c | deleteBlocks c =>
    exact (shaped.wrapped (all fun _ hm => hm) _ nil).visit
  | link url c | abbreviation url c =>
    have hu := own url (List.mem_singleton_self _)
    exact (shaped.wrapped (all fun _ hm => hm) _ (spellsValues_cons.2 ⟨hu, nil⟩)).visit
  | aligned a c =>
    have hs : A.Spells (Html.alignmentStyle a) := by cases a <;> exact spells_literal rfl
    exact (shaped.wrapped (all fun _ hm => hm) _ (spellsValues_cons.2 ⟨hs, nil⟩)).visit
  | linkReference label c =>
    rw [Html.node]
    refine Yields.visit ?_
    split
    · rename_i target ht
      have hu := hd.references ht target.url (List.mem_cons_self ..)
      exact shaped.wrapped (all fun _ hm => hm) _ (spellsValues_cons.2 ⟨hu, nil⟩)
    · exact all fun _ hm => hm
  | autoLinkMail address =>
    have ha := own address (List.mem_singleton_self _)
    exact (Yields.done (spells_link (spells_append.2 ⟨spells_literal rfl, ha⟩) (spells_textFragment ha))).visit
  | autoLinkUrl url =>
    have hu := own url (List.mem_singleton_self _)
    exact (Yields.done (spells_link hu (spells_textFragment hu))).visit
  | emoji e =>
    have hu := own e.unicode (List.mem_cons_of_mem _ (List.mem_singleton_self _))
    exact (Yields.done (spells_textFragment hu)).visit
  | htmlEntity name =>
    exact (Yields.done (spells_textFragment (spells_entityText (own name (List.mem_singleton_self _))))).visit
  | htmlEntityUnicode code =>
    rw [Html.node]
    refine (Yields.done ?_).visit
    cases hc : Html.charOfCode? code with
    | none => exact spells_empty
    | some c =>
      have h := (hn _ (List.mem_singleton_self _)).code code rfl c hc
      exact spells_textFragment (spells_char.2 h)
  | lineBreak | horizontalRule | sectionSeparator => exact (Yields.done (spells_void _ nil)).visit
  | footnoteReference key autoExpand => exact (spells_footnoteReference hp key autoExpand).visit
  | metaReference key => exact (Yields.done (spells_htmlMetaText hd key)).visit
  | detailsReference => exact (Yields.done (spells_htmlMetaText hd "Details")).visit
  | multimedia items c alone =>
    cases items with
    | nil => exact (all fun _ hm => hm).visit
    | cons item r =>
      have hi := fun u hu => own u (List.mem_flatMap.2 ⟨item, List.mem_cons_self .., hu⟩)
      have ha := spells_plainText (l := c) fun m hm => below m (by rwa [Node.walkAll_eq] at hm)
      exact (Yields.done (spells_image hi ha)).visit
  | multimediaReference label c alone =>
    rw [Html.node]
    refine Yields.visit ?_
    split
    · rename_i item hi
      have ha := spells_plainText (l := c) fun m hm => below m (by rwa [Node.walkAll_eq] at hm)
      exact .done (spells_image (hd.references hi) ha)
    · exact all fun _ hm => hm
  | inlineScript expression alone =>
    rw [Html.node, Html.script, he]
    exact (Yields.done (spells_codeText (own expression (List.mem_singleton_self _)))).visit
  | inlineHtml markup =>
    exact (Yields.done (spellsFragments_singleton.2 (own markup (List.mem_singleton_self _)))).visit
  | bulletList items =>
    rw [Html.node, Html.each_eq, List.map_map]
    exact (shaped.wrapped (shaped.inOrder fun m hm => shaped.wrapped (h m hm) .li nil) _ nil).visit
  | numberedList items =>
    rw [Html.node, Html.numbered_eq, List.map_map]
    refine (shaped.wrapped (shaped.inOrder fun i hi => ?_) _ nil).visit
    exact shaped.numberedItem (i.map (Html.node s)) (h i.child (Node.mem_children_numberedList hi))
  | taskList items =>
    rw [Html.node, Html.tasks_eq, List.map_map]
    refine (shaped.wrapped (shaped.inOrder fun i hi => shaped.wrapped ?_ _ nil) _ nil).visit
    refine (h i.child (Node.mem_children_taskList hi)).andThen fun _ hl => .done ?_
    have hb : A.Spells (if i.checked then "☑ " else "☐ ") := by cases i.checked <;> exact spells_literal rfl
    exact spells_append.2 ⟨spells_htmlEscape hb, hl⟩
  | definitionList groups => exact (shaped.wrapped (shaped.groups h) _ nil).visit
  | table t =>
    simp only [Node.strings, List.forall_mem_append, Option.mem_toList] at own
    rw [Html.node_table]
    refine (shaped.table_map ?_ ?_ h).visit
    · cases hi : t.id with
      | none => exact nil
      | some id => exact spellsValues_cons.2 ⟨own.2 id hi, nil⟩
    · cases hc : t.caption with
      | none => exact spells_empty
      | some caption => exact spells_element _ nil (spells_textFragment (own.1 caption hc))
  | codeBlock b =>
    have hb : A.Spells (Text.join "\n" b.rows) :=
      spells_joined (spells_literal rfl) fun row hr => own row (List.mem_append_left _ hr)
    exact (Yields.done (spells_element _ nil (spells_codeText hb))).visit
  | singleChild m | standalone m => exact (h m (List.mem_singleton_self m)).visit
  | nestedBlock c | htmlBlock c => exact (all fun _ hm => hm).visit
  | commentBlock lines => exact (Yields.done (spells_htmlComment (spells_joined (spells_literal rfl) own))).visit
  | invisibleBreak => exact (Yields.done shaped.nil).visit

include he hd hp

theorem spells_html {n : Node} (h : ∀ m ∈ n.walk, A.SpellsNode m) : Yields A.SpellsFragments (Html.node s n) := by
  induction n using Node.induction with
  | step n ih =>
    refine spells_html_of_children he hd hp h fun m hm => ih m hm fun k hk => h k ?_
    exact Node.mem_walk_of_child hm hk

theorem spells_htmlNodes {l : List Node} (h : ∀ m ∈ Node.walkAll l, A.SpellsNode m) :
    Yields A.SpellsFragments (Html.nodes s l) := by
  refine shaped_spellsFragments.nodes fun n hn => spells_html he hd hp fun m hm => h m ?_
  exact Node.mem_walkAll_of_mem hn hm

theorem spells_htmlFootnote {l : List Node} (h : ∀ m ∈ Node.walkAll l, A.SpellsNode m) :
    Yields A.SpellsFragments (Html.footnoteContent s l) := by
  induction l with
  | nil => exact .done spells_empty
  | cons n r ih =>
    have hr := ih fun m hm => h m (List.mem_append_right _ hm)
    have hn {m : Node} (hm : m ∈ n.walk) : A.SpellsNode m := h m (List.mem_append_left _ hm)
    have shaped := shaped_spellsFragments (A := A)
    cases n with
    | paragraph c => exact shaped.both (spells_htmlNodes he hd hp fun m hm => hn (List.mem_cons_of_mem _ hm)) hr
    | _ => exact shaped.both (spells_html he hd hp fun m hm => hn hm) hr

end Nodes

/-- Footnotes that are expanded in place are spelled in the alphabet. -/
theorem spells_htmlInPlace {s : Scope} (he : s.evaluator? = none) (hd : A.SpellsDocument s.document) (levels : Nat)
    (expanding : List String) (key : String) (content : Part)
    (hc : (s.expanding levels expanding).inPlace key = some content) : Yields A.SpellsFragments content := by
  -- as in a footnote one level less is left, by induction on the levels
  induction levels generalizing expanding key content with
  | zero => cases hc
  | succ levels ih =>
    simp only [Scope.expanding] at hc
    split at hc
    · cases hc
    · obtain ⟨f, hget, rfl⟩ := Option.map_eq_some_iff.1 hc
      have he' := (Html.expanding_evaluator? s levels (key :: expanding)).trans he
      have hd' : A.SpellsDocument (s.expanding levels (key :: expanding)).document :=
        (Html.expanding_document s levels (key :: expanding)).symm ▸ hd
      exact spells_htmlFootnote he' hd' (ih _) (hd.footnotes f (Footnotes.mem_of_get? hget))

end Alphabet

end XamlDoc
