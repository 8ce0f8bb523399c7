import XamlDoc.Proofs.Markup.ReadBack
import XamlDoc.Proofs.Markup.Whole

/-!
# The events of contents

The calls of whole contents write the same events in every layout; a layout adds blanks between them and
nothing else.
-/

namespace XamlDoc.Markup

open Xml (Event Layout Sink TextWriter cdataSections commentText contentMarkup contentsMarkup)

namespace Content

mutual

def events : Content → List Event
  | .element name attributes [] => [.empty ⟨name, attributes⟩]
  | .element name attributes (c :: r) =>
    .start ⟨name, attributes⟩ :: (events c ++ allEvents r ++ [.close name])
  | .text t => [.text t]
  | .raw t => (cdataSections t).map .cdata
  | .comment t => [.comment (commentText t)]

def allEvents : List Content → List Event
  | [] => []
  | c :: r => events c ++ allEvents r

end

theorem events_element (name : String) (attributes : List Attribute) {children : List Content}
    (h : children ≠ []) :
    events (.element name attributes children) =
      .start ⟨name, attributes⟩ :: (allEvents children ++ [.close name]) := by
  cases children with
  | nil => exact absurd rfl h
  | cons c r => rw [events, allEvents]

end Content

open Content (calls allCalls events allEvents events_element)

namespace Xml

/-! ### Text in a layout -/

/-- The text of some events, each after its lead. -/
def Layout.text (l : Layout) : List Event → String
  | [] => ""
  | e :: r => (l.place e).1 ++ e.markup ++ (l.place e).2.text r

/-- What a layout puts before an event: nothing, or a line break and blanks. -/
theorem Layout.place_lead (l : Layout) (e : Event) :
    (l.place e).1 = "" ∨ ∃ n, (l.place e).1 = String.ofList ('\n' :: List.replicate n ' ') := by
  have lead (l : Layout) : l.lead = "" ∨ ∃ n, l.lead = String.ofList ('\n' :: List.replicate n ' ') := by
    unfold Layout.lead
    split
    · exact .inr ⟨_, rfl⟩
    · exact .inl rfl
  cases e with
  | start t | empty t | close name | comment t => exact lead _
  | text t | cdata t => exact .inl rfl

/-- The layout after some events. -/
def Layout.after (l : Layout) (es : List Event) : Layout := es.foldl (fun l e => (l.place e).2) l

theorem Layout.text_append (l : Layout) (es fs : List Event) :
    l.text (es ++ fs) = l.text es ++ (l.after es).text fs := by
  induction es generalizing l with
  | nil => exact String.empty_append.symm
  | cons e r ih =>
    have h : (l.place e).2.text (r ++ fs) = _ := ih (l.place e).2
    simp only [List.cons_append, Layout.text, h, String.append_assoc]
    rfl

theorem Layout.text_cdatas (l : Layout) (sections : List String) :
    l.text (sections.map .cdata) = String.join (sections.map fun t => (Event.cdata t).markup) := by
  induction sections generalizing l with
  | nil => rfl
  | cons t r ih =>
    rw [List.map_cons, Layout.text, ih, List.map_cons, String.join_cons]
    exact congrArg (· ++ _) String.empty_append

theorem Layout.mem_text {e : Event} {es : List Event} (he : e ∈ es) (l : Layout) {c : Char}
    (hc : c ∈ e.markup.toList) : c ∈ (l.text es).toList := by
  induction es generalizing l with
  | nil => cases he
  | cons d r ih =>
    simp only [Layout.text, String.toList_append, List.mem_append]
    rcases List.mem_cons.1 he with rfl | he
    · exact .inl (.inr hc)
    · exact .inr (ih he _)

namespace TextWriter

open Writer (after after_append)

variable {w : TextWriter}

theorem sink_wroteAll (h : w.sink.room? = none) (es : List Event) :
    (w.wroteAll es).sink = ⟨w.sink.bytes ++ (w.layout.text es).toUTF8, none⟩ := by
  induction es generalizing w with
  | nil =>
    obtain ⟨⟨bytes, room?⟩, layout, names, pending?, isFinished⟩ := w
    cases h
    simp [wroteAll, Layout.text]
  | cons e r ih =>
    have hr : ((w.wrote e).wroteAll r).sink = _ := ih rfl
    rw [show w.wroteAll (e :: r) = (w.wrote e).wroteAll r from rfl, hr]
    simp [wrote, Layout.text, ByteArray.append_assoc, String.append_assoc]

/-! ### The calls of contents -/

theorem flushed_of_no_pending (h : w.pending? = none) : w.flushed = w := by
  rw [flushed, h]

theorem wroteAll_append (w : TextWriter) (a b : List Event) :
    w.wroteAll (a ++ b) = (w.wroteAll a).wroteAll b := List.foldl_append

/-- What is open makes no difference for what is written. -/
theorem wroteAll_open (w : TextWriter) (names : List String) (pending? : Option Tag) (es : List Event) :
    ({ w with names, pending? } : TextWriter).wroteAll es = { w.wroteAll es with names, pending? } := by
  induction es generalizing w with
  | nil => rfl
  | cons e r ih => exact ih (w.wrote e)

theorem after_attributes (hw : w.Works) {name : String} (before attributes : List Attribute) :
    after (attributes.map fun a => Call.attr a.1 a.2) ({ w with pending? := some ⟨name, before⟩ } : TextWriter) =
      { w with pending? := some ⟨name, before ++ attributes⟩ } := by
  induction attributes generalizing before with
  | nil => simp [after]
  | cons a r ih =>
    have hp : ({ w with pending? := some ⟨name, before⟩ } : TextWriter).Works := ⟨hw.unfinished, hw.unlimited⟩
    have ha := ih (before ++ [a])
    rw [List.append_assoc] at ha
    rw [List.map_cons, after]
    show after _ (perform _ _).2 = _
    rw [perform_attr hp]
    exact ha

/-- The writer after the start of an element. -/
def entered (w : TextWriter) (t : Tag) : TextWriter :=
  { w.flushed with pending? := some t, names := t.name :: w.names }

theorem Works.entered (hw : w.Works) (t : Tag) : (w.entered t).Works :=
  ⟨hw.flushed.unfinished, hw.flushed.unlimited⟩

theorem after_ofTag (hw : w.Works) (t : Tag) : after (Call.ofTag t) w = w.entered t := by
  have hn : ({ w.flushed with names := t.name :: w.names } : TextWriter).Works :=
    ⟨hw.flushed.unfinished, hw.flushed.unlimited⟩
  rw [Call.ofTag, after]
  show after _ (perform _ _).2 = _
  rw [perform_element hw]
  exact after_attributes hn [] t.attributes

theorem left_entered (w : TextWriter) (t : Tag) :
    { w.entered t with names := w.names, pending? := none } = w.flushed := by
  have hn := names_flushed w
  have hp := pending_flushed w
  rw [entered]
  generalize w.flushed = v at hn hp
  obtain ⟨sink, layout, names, pending?, isFinished⟩ := v
  cases hn
  cases hp
  rfl

theorem after_close (hw : w.Works) {name : String} {names : List String} (h : w.names = name :: names) :
    after [.close] w = w.closed name names := by
  rw [after]
  show after [] (perform _ _).2 = _
  rw [perform_close hw, h]
  rfl

mutual

theorem after_calls (c : Content) {w : TextWriter} (hw : w.Works) :
    after c.calls w = w.flushed.wroteAll (events c) := by
  cases c with
  | element name attributes children =>
    let t : Tag := ⟨name, attributes⟩
    have ht := hw.entered t
    rw [calls, after_append, after_ofTag hw, after_append]
    cases children with
    | nil =>
      show after [.close] (w.entered t) = _
      rw [after_close ht rfl, closed, left_entered]
      rfl
    | cons c r =>
      rw [after_allCalls (c :: r) ht (List.cons_ne_nil c r), events_element _ _ (List.cons_ne_nil c r)]
      let es := allEvents (c :: r)
      have hn : ((w.entered t).flushed.wroteAll es).names = name :: w.names := by
        rw [names_wroteAll, names_flushed]
        rfl
      have hp : ((w.entered t).flushed.wroteAll es).pending? = none := by
        rw [pending_wroteAll, pending_flushed]
      rw [after_close (ht.flushed.wroteAll es) hn, closed, endEvent, hp, ← wroteAll_open]
      -- closed again, the element has left nothing but its events
      have hl : ({ (w.entered t).flushed with names := w.names, pending? := none } : TextWriter) =
          w.flushed.wrote (.start t) := by
        rw [← left_entered w t]
        rfl
      rw [hl, ← List.singleton_append, wroteAll_append, wroteAll_append]
      rfl
  | text t => exact congrArg Prod.snd (perform_leaf hw (c := .text t) trivial)
  | raw t => exact congrArg Prod.snd (perform_leaf hw (c := .raw t) trivial)
  | comment t => exact congrArg Prod.snd (perform_leaf hw (c := .comment t) trivial)

theorem after_allCalls (k : List Content) {w : TextWriter} (hw : w.Works) (hk : k ≠ []) :
    after (allCalls k) w = w.flushed.wroteAll (allEvents k) := by
  cases k with
  | nil => exact absurd rfl hk
  | cons c r =>
    rw [allCalls, after_append, after_calls c hw]
    cases r with
    | nil => simp [allCalls, allEvents, after]
    | cons d r =>
      rw [after_allCalls (d :: r) (hw.flushed.wroteAll _) (List.cons_ne_nil d r),
        flushed_of_no_pending (by simp), ← wroteAll_append]
      rfl

end

/-! ### Finished texts -/

/-- In every layout, the calls of contents leave the text of their events. -/
theorem finish_after_allCalls (l : Layout) (k : List Content) :
    ∃ w, (after (allCalls k) (new .unlimited l)).finish = (.ok (), w) ∧ w.sink.text = l.text (allEvents k) := by
  have hw : (new .unlimited l).Works := ⟨rfl, rfl⟩
  have ha : after (allCalls k) (new .unlimited l) = (new .unlimited l).wroteAll (allEvents k) := by
    cases k with
    | nil => rfl
    | cons c r => exact after_allCalls (c :: r) hw (List.cons_ne_nil c r)
  refine ⟨{ (new .unlimited l).wroteAll (allEvents k) with isFinished := true }, ?_, ?_⟩
  · rw [ha, finish, if_neg (by simp [(hw.wroteAll _).unfinished]), names_wroteAll]
    rfl
  · show Sink.text ((new .unlimited l).wroteAll (allEvents k)).sink = _
    rw [sink_wroteAll rfl, Sink.text]
    exact (congrArg Sink.decode ByteArray.empty_append).trans (decode_toUTF8 _)

end TextWriter

end Xml

end XamlDoc.Markup
