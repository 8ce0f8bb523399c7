import XamlDoc.Proofs.Markup.Characters
import XamlDoc.Proofs.Markup.Names

/-!
# What a processor sees

A processor of XML takes a text whose characters are all allowed, and passes the values of attributes on after it has
normalised them: every tab and every end of a line that stands in a value becomes a space. The elements and values of
contents are the same for it in all layouts of their text.
-/

namespace XamlDoc.Markup

open Content (allEvents allMerged allNamed allNamed_append allNamed_singleton events events_element glue merged named)
open Xml (Event Layout escapeChar escapeChars readFrom)

/-! ### Contents that differ in what is between elements -/

/-- The same elements with the same attributes, whatever text is in and between them. -/
def Alike (a b : List Content) : Prop :=
  ∀ name, (allNamed name a).map Element.attributes = (allNamed name b).map Element.attributes

namespace Alike

variable {a b c d : List Content}

theorem refl (a : List Content) : Alike a a := fun _ => rfl

theorem trans (h : Alike a b) (h' : Alike b c) : Alike a c := fun name => (h name).trans (h' name)

theorem append (h : Alike a b) (h' : Alike c d) : Alike (a ++ c) (b ++ d) := by
  intro name
  simp only [allNamed_append, List.map_append, h name, h' name]

theorem element (h : Alike a b) (n : String) (attributes : List Attribute) :
    Alike [.element n attributes a] [.element n attributes b] := by
  intro name
  simp only [allNamed_singleton, named]
  split
  · simp only [List.map_cons, h name]
  · exact h name

/-- A text in front makes no difference. -/
theorem text_cons (h : Alike a b) (t : String) : Alike (.text t :: a) b := h

theorem append_text (h : Alike a b) (t : String) : Alike (a ++ [.text t]) b := by
  have ht : Alike [.text t] [] := fun _ => rfl
  have hn := h.append ht
  rwa [List.append_nil] at hn

end Alike

theorem allNamed_glue (name : String) (c : Content) (k : List Content) :
    allNamed name (glue c k) = named name c ++ allNamed name k := by
  rw [glue]
  split
  · rename_i hb
    cases c <;> first | cases hb | rfl
  · cases c <;> rcases k with _ | ⟨_ | _ | _ | _, r⟩ <;> rfl

mutual

theorem alike_merged (c : Content) : Alike [merged c] [c] := by
  cases c with
  | element n attributes children => exact (alike_allMerged children).element n attributes
  | text t | raw t | comment t => exact .refl _

theorem alike_allMerged (k : List Content) : Alike (allMerged k) k := by
  cases k with
  | nil => exact .refl _
  | cons c r =>
    intro name
    have hc := alike_merged c name
    rw [allNamed_singleton, allNamed_singleton] at hc
    rw [allMerged, allNamed_glue, allNamed, List.map_append, List.map_append, hc, alike_allMerged r name]

end

/-! ### Reading the text of a layout -/

namespace Xml

/-- The builder with contents added to it one by one. -/
def grown (b : TreeBuilder) (k : List Content) : TreeBuilder := k.foldl (fun b c => b.add c.merged) b

theorem grown_append (b : TreeBuilder) (k l : List Content) : grown b (k ++ l) = grown (grown b k) l :=
  List.foldl_append

theorem escapeChars_lead (n : Nat) : escapeChars ('\n' :: List.replicate n ' ') = '\n' :: List.replicate n ' ' := by
  have hb : escapeChar ' ' = [' '] := rfl
  have hn : escapeChar '\n' = ['\n'] := rfl
  rw [escapeChars, List.flatMap_cons, List.flatMap_replicate, hb, hn, List.singleton_append]
  exact congrArg _ (List.flatten_replicate_singleton ..)

/-- What a layout puts before an event is read as text. -/
theorem readFrom_lead (l : Layout) (e : Event) (b : TreeBuilder) (rest : List Char) :
    readFrom b ((l.place e).1.toList ++ rest) = readFrom (grown b [.text (l.place e).1]) rest := by
  show _ = readFrom (b.add (.text _)) rest
  rcases l.place_lead e with he | ⟨n, he⟩
  · rw [he, add_of_blank rfl]
    rfl
  · have hr := readFrom_escapeChars ('\n' :: List.replicate n ' ') rest b
    rw [escapeChars_lead] at hr
    rw [he, String.toList_ofList, hr]

/-- An event after what stands before it. -/
theorem readFrom_placed {e : Event} (h : e.Legible) (l : Layout) (b : TreeBuilder) (rest : List Char) :
    readFrom b ((l.place e).1.toList ++ (e.markup.toList ++ rest)) =
      ((grown b [.text (l.place e).1]).take? e).bind fun b => readFrom b rest :=
  (readFrom_lead l e b _).trans (readFrom_event h _ rest)

/-- What the end of an element makes of what was read since its start. -/
theorem take?_close (b : TreeBuilder) (t : Tag) (k : List Content) :
    (grown { b with frames := ⟨t.name, t.attributes, []⟩ :: b.frames } k).take? (.close t.name) =
      some (b.add (merged (.element t.name t.attributes k))) := by
  rw [grown, foldl_add]
  show (if t.name = t.name then some _ else none) = _
  rw [if_pos rfl, Frame.close, Content.reverse_foldl_glueAfter]
  rfl

mutual

/-- A content with the texts that a layout puts in and before it. -/
def spaced (l : Layout) : Content → List Content
  | .element name attributes [] =>
    [.text (l.place (.empty ⟨name, attributes⟩)).1, .element name attributes []]
  | .element name attributes (c :: r) =>
    let (lead, inner) := l.place (.start ⟨name, attributes⟩)
    let last := ((inner.after (allEvents (c :: r))).place (.close name)).1
    [.text lead, .element name attributes
      (spaced inner c ++ allSpaced (inner.after c.events) r ++ [.text last])]
  | .text t => [.text t]
  | .raw t => [.raw t]
  | .comment t => [.text (l.place (.comment (commentText t))).1, .comment t]

def allSpaced (l : Layout) : List Content → List Content
  | [] => []
  | c :: r => spaced l c ++ allSpaced (l.after c.events) r

end

theorem spaced_element (l : Layout) (name : String) (attributes : List Attribute) {children : List Content}
    (h : children ≠ []) :
    let inner := (l.place (.start ⟨name, attributes⟩)).2
    spaced l (.element name attributes children) = [.text (l.place (.start ⟨name, attributes⟩)).1,
      .element name attributes (allSpaced inner children ++
        [.text ((inner.after (allEvents children)).place (.close name)).1])] := by
  cases children with
  | nil => exact absurd rfl h
  | cons c r => simp only [spaced, allSpaced]

mutual

theorem readFrom_events (c : Content) (h : ∀ e ∈ c.events, e.Legible) (l : Layout) (b : TreeBuilder)
    (rest : List Char) :
    readFrom b ((l.text c.events).toList ++ rest) = readFrom (grown b (spaced l c)) rest := by
  cases c with
  | element name attributes children =>
    let tag : Tag := ⟨name, attributes⟩
    cases children with
    | nil =>
      have ht := readFrom_placed (h (.empty tag) (List.mem_singleton_self _)) l b rest
      rw [events, Layout.text, Layout.text, String.append_empty, String.toList_append, List.append_assoc, ht]
      rfl
    | cons d r =>
      rw [events_element _ _ (List.cons_ne_nil d r), List.forall_mem_cons, List.forall_mem_append] at h
      obtain ⟨hs, hc, he⟩ := h
      -- what stands before the end tag is read as the last of the children
      let inner := (l.place (.start tag)).2
      let final := inner.after (allEvents (d :: r))
      let opened : TreeBuilder := { grown b [.text (l.place (.start tag)).1] with
        frames := ⟨name, attributes, []⟩ :: (grown b [.text (l.place (.start tag)).1]).frames }
      have ht := readFrom_placed hs l b
        ((inner.text (allEvents (d :: r))).toList ++ ((final.text [.close name]).toList ++ rest))
      have hk := readFrom_allEvents (d :: r) hc inner opened ((final.text [.close name]).toList ++ rest)
      have hu := readFrom_placed (he (.close name) (List.mem_singleton_self _)) final
        (grown opened (allSpaced inner (d :: r))) rest
      have hclose := take?_close (grown b [.text (l.place (.start tag)).1]) tag
        (allSpaced inner (d :: r) ++ [.text (final.place (.close name)).1])
      rw [← grown_append, hclose] at hu
      rw [events_element _ _ (List.cons_ne_nil d r), Layout.text, Layout.text_append, spaced_element _ _ _
        (List.cons_ne_nil d r)]
      simp only [String.toList_append, List.append_assoc]
      refine ht.trans (hk.trans ?_)
      rw [Layout.text, Layout.text, String.append_empty, String.toList_append, List.append_assoc, hu]
      rfl
  | text t =>
    have he := readFrom_event (e := .text t) trivial b rest
    rw [events, Layout.text, Layout.text, String.append_empty]
    exact he
  | raw t =>
    have hs := readFrom_sections (fun u (hu : u ∈ cdataChars t.toList) => free_of_mem_cdataChars hu) b rest
    rw [cdataChars_flatten, String.ofList_toList] at hs
    rw [events, Layout.text_cdatas, cdataSections, List.map_map]
    exact hs
  | comment t =>
    have hu := readFrom_placed (h _ (List.mem_singleton_self _)) l b rest
    rw [events, Layout.text, Layout.text, String.append_empty, String.toList_append, List.append_assoc, hu]
    rfl

theorem readFrom_allEvents (k : List Content) (h : ∀ e ∈ allEvents k, e.Legible) (l : Layout) (b : TreeBuilder)
    (rest : List Char) :
    readFrom b ((l.text (allEvents k)).toList ++ rest) = readFrom (grown b (allSpaced l k)) rest := by
  cases k with
  | nil => rfl
  | cons c r =>
    rw [allEvents, List.forall_mem_append] at h
    rw [allEvents, Layout.text_append, String.toList_append, List.append_assoc, readFrom_events c h.1,
      readFrom_allEvents r h.2, ← grown_append]
    rfl

end

/-- The text of contents is read as they are, with the texts that the layout puts between them. -/
theorem read?_spaced {k : List Content} (h : ∀ e ∈ allEvents k, e.Legible) (l : Layout) :
    read? (l.text (allEvents k)) = some (allMerged (allSpaced l k)) := by
  have hr := readFrom_allEvents k h l TreeBuilder.empty []
  rw [List.append_nil, readFrom_nil, grown, TreeBuilder.empty, foldl_add_roots] at hr
  rw [read?, TreeBuilder.empty, hr]
  exact congrArg some (Content.reverse_foldl_glueAfter _)

mutual

theorem alike_spaced (l : Layout) (c : Content) : Alike (spaced l c) [c] := by
  cases c with
  | element name attributes children =>
    cases children with
    | nil => exact .text_cons (.refl _) _
    | cons d r =>
      rw [spaced_element _ _ _ (List.cons_ne_nil d r)]
      exact .text_cons (((alike_allSpaced _ (d :: r)).append_text _).element name attributes) _
  | text t | raw t => exact .refl _
  | comment t => exact .text_cons (.refl _) _

theorem alike_allSpaced (l : Layout) (k : List Content) : Alike (allSpaced l k) k := by
  cases k with
  | nil => exact .refl _
  | cons c r => exact (alike_spaced l c).append (alike_allSpaced _ r)

end

/-- In all layouts, the elements of contents can be read back with all their attributes. -/
theorem read?_text {k : List Content} (h : ∀ e ∈ allEvents k, e.Legible) (l : Layout) :
    ∃ k', read? (l.text (allEvents k)) = some k' ∧ Alike k' k :=
  ⟨_, read?_spaced h l, (alike_allMerged _).trans (alike_allSpaced l k)⟩

/-! ### Values -/

/-- The characters that a value has to give up: tab, line feed and carriage return. -/
def isBreak (c : Char) : Bool := c = '\t' || c = '\n' || c = '\r'

/-- A value as it is passed on: a carriage return with a line feed is one end of a line. -/
def normalize : List Char → List Char
  | [] => []
  | '\r' :: '\n' :: r => ' ' :: normalize r
  | c :: r => (if isBreak c then ' ' else c) :: normalize r

theorem normalize_eq_self_iff {s : List Char} : normalize s = s ↔ ∀ c ∈ s, isBreak c = false := by
  fun_induction normalize s with
  | case1 => simp
  | case2 r ih => simp [isBreak]
  | case3 c r _ ih =>
    rw [List.cons.injEq, ih, List.forall_mem_cons]
    refine and_congr_left fun _ => ?_
    cases hc : isBreak c with
    | false => simp
    | true =>
      have hb : ' ' ≠ c := by
        rintro rfl
        cases hc
      simpa using hb

/-- The value of an attribute as it is passed on. -/
def normalized (value : String) : String := String.ofList (normalize value.toList)

theorem normalized_eq_self_iff {value : String} : normalized value = value ↔ ∀ c ∈ value.toList, isBreak c = false := by
  rw [← normalize_eq_self_iff, normalized, ← String.toList_inj, String.toList_ofList]

/-- The values of an attribute in all elements of a name, as a processor passes them on; `none` if it has to refuse the
text. The reader knows the five predefined entities and no references to characters, so that values may be normalised
when they are decoded. -/
def values? (name key : String) (s : String) : Option (List String) :=
  if s.toList.all isAllowed then
    (read? s).map fun k => (allNamed name k).filterMap fun e => (e.attr? key).map normalized
  else none

theorem values?_eq_none {name key s : String} (h : s.toList.all isAllowed = false) :
    values? name key s = none := by
  rw [values?, h]
  rfl

theorem values?_text {k : List Content} (h : ∀ e ∈ allEvents k, e.Legible) {l : Layout}
    (hc : (l.text (allEvents k)).toList.all isAllowed = true) (name key : String) :
    values? name key (l.text (allEvents k)) =
      some ((allNamed name k).filterMap fun e => (e.attr? key).map normalized) := by
  obtain ⟨k', hr, ha⟩ := read?_text h l
  have hv (k : List Content) : ((allNamed name k).filterMap fun e => (e.attr? key).map normalized) =
      ((allNamed name k).map Element.attributes).filterMap fun a => (a.lookup key).map normalized := by
    rw [List.filterMap_map]
    rfl
  rw [values?, hc, hr, if_pos rfl, Option.map_some, hv, hv, ha name]

end Xml

end XamlDoc.Markup
