import XamlDoc.Proofs.Footnote.Basic
import XamlDoc.Proofs.Html.Yields

/-!
# Well-formed HTML

A grammar for the text of fragments: character data, elements and void elements with the tags and
attributes that there are, in which text and attribute values hold special characters only as entities. What a
pass makes of nodes without HTML of their own follows it, so no text of a document can begin, end or change
a tag.
-/

namespace XamlDoc

namespace Html

/-! ### The grammar -/

/-- Text without special characters, apart from entities. -/
inductive CharacterData : List Char → Prop where
  | nil : CharacterData []
  | char {c : Char} {s : List Char} : c ∉ ['<', '>', '"', '\'', '&'] → CharacterData s → CharacterData (c :: s)
  | entity {e : String} {s : List Char} : e ∈ ["&amp;", "&lt;", "&gt;", "&quot;", "&#x27;"] → CharacterData s →
    CharacterData (e.toList ++ s)

inductive AttributeList : List Char → Prop where
  | nil : AttributeList []
  | cons (name : AttributeName) {value rest : List Char} : CharacterData value → AttributeList rest →
    AttributeList (" ".toList ++ name.text.toList ++ "=\"".toList ++ value ++ "\"".toList ++ rest)

/-- Character data and elements in any order. Every element is closed before the one around it. -/
inductive Balanced : List Char → Prop where
  | nil : Balanced []
  | text {s rest : List Char} : CharacterData s → Balanced rest → Balanced (s ++ rest)
  | element (tag : Tag) {attributes content rest : List Char} : AttributeList attributes → Balanced content →
    Balanced rest → Balanced ("<".toList ++ tag.name.toList ++ attributes ++ ">".toList ++ content
      ++ "</".toList ++ tag.name.toList ++ ">".toList ++ rest)
  | void (tag : VoidTag) {attributes rest : List Char} : AttributeList attributes → Balanced rest →
    Balanced ("<".toList ++ tag.name.toList ++ attributes ++ "/>".toList ++ rest)

/-! ### Fragments -/

theorem characterData_escapeChars (s : List Char) : CharacterData (escapeChars s) := by
  induction s with
  | nil => exact .nil
  | cons c r ih =>
    have step : escapeChars (c :: r) = escapeChar c ++ escapeChars r := List.flatMap_cons ..
    rw [step, escapeChar]
    unfold entity?
    split
    · rename_i e he
      refine .entity ?_ ih
      split at he <;> cases he <;> decide
    · rename_i he
      refine .char ?_ ih
      intro hc
      simp only [List.mem_cons, List.not_mem_nil, or_false] at hc
      rcases hc with rfl | rfl | rfl | rfl | rfl <;> cases he

theorem characterData_escape (s : String) : CharacterData (escape s).toList := by
  rw [escape, String.toList_ofList]
  exact characterData_escapeChars _

theorem attributeList_markup (a : Attributes) : AttributeList (attributesMarkup a).toList := by
  induction a with
  | nil => exact .nil
  | cons e r ih =>
    obtain ⟨name, value⟩ := e
    simpa [attributesMarkup] using AttributeList.cons name (characterData_escape value) ih

mutual

/-- All text in the fragment will be escaped. -/
def Fragment.Escaped : Fragment → Prop
  | .text _ | .void _ _ => True
  | .verbatim _ | .comment _ => False
  | .element _ _ children => AllEscaped children

def AllEscaped : List Fragment → Prop
  | [] => True
  | f :: r => f.Escaped ∧ AllEscaped r

end

theorem allEscaped_append {l r : List Fragment} (hl : AllEscaped l) (hr : AllEscaped r) :
    AllEscaped (l ++ r) := by
  induction l with
  | nil => exact hr
  | cons f l ih => exact ⟨hl.1, ih hl.2⟩

theorem balanced_markupAll : ∀ {l : List Fragment}, AllEscaped l → Balanced (markupAll l).toList
  | [], _ => .nil
  | .text content :: r, h => by
    have := Balanced.text (characterData_escape content) (balanced_markupAll h.2)
    simpa [markupAll, Fragment.markup] using this
  | .element tag attributes children :: r, h => by
    have content := balanced_markupAll h.1
    have := Balanced.element tag (attributeList_markup attributes) content (balanced_markupAll h.2)
    simpa [markupAll, Fragment.markup] using this
  | .void tag attributes :: r, h => by
    have := Balanced.void tag (attributeList_markup attributes) (balanced_markupAll h.2)
    simpa [markupAll, Fragment.markup] using this

theorem shaped_allEscaped : Shaped AllEscaped fun _ => True where
  nil := trivial
  append := allEscaped_append
  element _ _ _ _ hl := ⟨hl, trivial⟩
  none := trivial
  number _ _ := trivial

/-! ### Nodes -/

/-- The node is HTML of the document's own, which is not escaped. -/
def isRaw : Node → Bool
  | .inlineHtml _ | .commentBlock _ => true
  | _ => false

theorem allEscaped_metaText (s : Scope) (key : String) : AllEscaped (metaText s key) := by
  unfold metaText
  cases s.document.metadata.joined? key <;> simp [AllEscaped, Fragment.Escaped]

section Nodes

variable {s : Scope} (he : s.evaluator? = none)
  (hp : ∀ key content, s.inPlace key = some content → Yields AllEscaped content)

include hp in
theorem yields_footnoteReference (key : String) (autoExpand : Bool) :
    Yields AllEscaped (footnoteReference s key autoExpand) := by
  unfold footnoteReference
  split
  · exact Yields.done trivial
  · split
    · rename_i content hc
      cases autoExpand with
      | true => exact hp key content hc
      | false => cases hc
    · exact (Yields.any _).andThen fun number _ => Yields.done ⟨⟨⟨trivial, trivial⟩, trivial⟩, trivial⟩

include he hp in
theorem yields_node_of_children {n : Node} (hn : isRaw n = false)
    (h : ∀ m ∈ n.children, Yields AllEscaped (node s m)) : Yields AllEscaped (node s n) := by
  have shaped := shaped_allEscaped
  have all {c : List Node} (hc : ∀ m ∈ c, m ∈ n.children) := shaped.nodes fun m hm => h m (hc m hm)
  cases n with
  | inlineHtml _ | commentBlock _ => cases hn
  | footnoteReference key autoExpand => exact (yields_footnoteReference hp key autoExpand).visit
  | strong c | emphasize c | delete c | insert c | underline c | superscript c | subscript c | link _ c
  | abbreviation _ c | paragraph c | header _ c | blockQuote c | insertBlocks c | deleteBlocks c
  | aligned _ c => exact (shaped.wrapped (all fun _ hm => hm) _ trivial).visit
  | linkReference label c =>
    rw [node]
    refine Yields.visit ?_
    split
    · exact shaped.wrapped (all fun _ hm => hm) _ trivial
    · exact all fun _ hm => hm
  | multimedia items c alone =>
    cases items with
    | nil => exact (all fun _ hm => hm).visit
    | cons item r => exact (Yields.done ⟨trivial, trivial⟩).visit
  | multimediaReference label c alone =>
    rw [node]
    refine Yields.visit ?_
    split
    · exact Yields.done ⟨trivial, trivial⟩
    · exact all fun _ hm => hm
  | inlineScript expression alone =>
    rw [node, script, he]
    exact (Yields.done ⟨⟨trivial, trivial⟩, trivial⟩).visit
  | bulletList items =>
    rw [node, each_eq, List.map_map]
    exact (shaped.wrapped (shaped.inOrder fun m hm => shaped.wrapped (h m hm) .li trivial) _ trivial).visit
  | numberedList items =>
    rw [node, numbered_eq, List.map_map]
    refine (shaped.wrapped (shaped.inOrder fun i hi => ?_) _ trivial).visit
    exact shaped.numberedItem (i.map (node s)) (h i.child (Node.mem_children_numberedList hi))
  | taskList items =>
    rw [node, tasks_eq, List.map_map]
    refine (shaped.wrapped (shaped.inOrder fun i hi => shaped.wrapped ?_ _ trivial) _ trivial).visit
    exact (h i.child (Node.mem_children_taskList hi)).andThen fun _ hl => Yields.done ⟨trivial, hl⟩
  | definitionList groups => exact (shaped.wrapped (shaped.groups h) _ trivial).visit
  | table t =>
    rw [node_table]
    refine (shaped.table_map trivial ?_ h).visit
    cases t.caption <;> simp [AllEscaped, Fragment.Escaped, wrap]
  | singleChild m | standalone m => exact (h m (List.mem_singleton_self m)).visit
  | nestedBlock c | htmlBlock c => exact (all fun _ hm => hm).visit
  | metaReference key => exact (Yields.done (allEscaped_metaText s key)).visit
  | detailsReference => exact (Yields.done (allEscaped_metaText s "Details")).visit
  | htmlEntityUnicode code =>
    rw [node]
    refine (Yields.done ?_).visit
    cases charOfCode? code <;> trivial
  | _ => exact (Yields.done (by simp [AllEscaped, Fragment.Escaped, codeText, wrap, link])).visit

include he hp in
theorem yields_node {n : Node} (h : ∀ m ∈ n.walk, isRaw m = false) : Yields AllEscaped (node s n) := by
  induction n using Node.induction with
  | step n ih =>
    refine yields_node_of_children he hp (h n n.self_mem_walk) fun m hm => ih m hm fun k hk => h k ?_
    exact Node.mem_walk_of_child hm hk

include he hp in
theorem yields_walkAll {l : List Node} (h : ∀ m ∈ Node.walkAll l, isRaw m = false) :
    Yields AllEscaped (nodes s l) := by
  refine shaped_allEscaped.nodes fun n hn => yields_node he hp fun m hm => h m ?_
  exact Node.mem_walkAll_of_mem hn hm

include he hp in
theorem yields_footnoteContent {l : List Node} (h : ∀ m ∈ Node.walkAll l, isRaw m = false) :
    Yields AllEscaped (footnoteContent s l) := by
  induction l with
  | nil => exact Yields.done trivial
  | cons n r ih =>
    have hr := ih fun m hm => h m (List.mem_append_right _ hm)
    have hn {m : Node} (hm : m ∈ n.walk) : isRaw m = false := h m (List.mem_append_left _ hm)
    cases n with
    | paragraph c => exact shaped_allEscaped.both (yields_walkAll he hp fun m hm => hn (List.mem_cons_of_mem _ hm)) hr
    | _ => exact shaped_allEscaped.both (yields_node he hp fun m hm => hn hm) hr

end Nodes

variable {s : Scope}

theorem yields_inPlace (he : s.evaluator? = none)
    (hf : ∀ f ∈ s.document.footnotes.entries, ∀ n ∈ Node.walkAll f.content, isRaw n = false) (levels : Nat)
    (expanding : List String) (key : String) (content : Part)
    (hc : (s.expanding levels expanding).inPlace key = some content) : Yields AllEscaped content := by
  -- inside a footnote one level less is left, and what stands in place there is escaped by induction
  induction levels generalizing expanding key content with
  | zero => cases hc
  | succ levels ih =>
    simp only [Scope.expanding] at hc
    split at hc
    · cases hc
    · obtain ⟨f, hget, rfl⟩ := Option.map_eq_some_iff.1 hc
      have he' := (expanding_evaluator? s levels (key :: expanding)).trans he
      exact yields_footnoteContent he' (ih _) (hf f (Footnotes.mem_of_get? hget))

/-- The HTML of nodes is well formed, in any document, whichever of its footnotes are being expanded and
whatever numbers have been given, unless the document brings HTML of its own. -/
theorem nodes_balanced {levels : Nat} {expanding : List String} {l : List Node} {t t' : Traversal}
    {fs : List Fragment} (he : s.evaluator? = none) (hl : ∀ n ∈ Node.walkAll l, isRaw n = false)
    (hf : ∀ f ∈ s.document.footnotes.entries, ∀ n ∈ Node.walkAll f.content, isRaw n = false)
    (h : nodes (s.expanding levels expanding) l t = .ok (fs, t')) : Balanced (markupAll fs).toList := by
  have he' := (expanding_evaluator? s levels expanding).trans he
  have escaped := yields_walkAll he' (yields_inPlace he hf levels expanding) hl
  exact balanced_markupAll (escaped t fs t' h)

/-- A footnote whose content looks like the end of a tag and refers to itself. -/
def quotingScope : Scope :=
  ⟨none, .plain, { Document.ofNodes [] with
    footnotes := ⟨[⟨"n", [.paragraph [.text "'></a>", .footnoteReference "n" true]]⟩]⟩ },
    fun _ => none, fun _ => pure []⟩

def quotingLink : Node := .link "\"><b>" [.footnoteReference "n" true]

theorem nodes_balanced_quoting :
    ∃ fs t', nodes (quotingScope.expanding 1 []) [quotingLink] (.start none) = .ok (fs, t') ∧
      markupAll fs = "<a href=\"&quot;&gt;&lt;b&gt;\">&#x27;&gt;&lt;/a&gt;<sup><a href=\"#fn-1\">1</a></sup></a>" ∧
      Balanced (markupAll fs).toList := by
  let fs := [link "\"><b>" [.text "'></a>", footnoteNumber 1]]
  obtain ⟨t', h⟩ : ∃ t', nodes (quotingScope.expanding 1 []) [quotingLink] (.start none) = .ok (fs, t') := ⟨_, rfl⟩
  refine ⟨fs, t', h, by decide +kernel, nodes_balanced rfl ?_ ?_ h⟩
  · decide
  · decide

end Html

end XamlDoc
