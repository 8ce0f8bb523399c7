import XamlDoc.Proofs.Markup.Gauge

/-!
# A text writer that can write

The states of an unfinished text writer over a sink that takes everything: what each call makes of
them. No call fails for want of room, so the writer is gauged by its open elements and the start tag
held back.
-/

namespace XamlDoc.Markup.Xml

namespace TextWriter

/-- The writer is not finished, and its sink takes everything. -/
structure Works (w : TextWriter) : Prop where
  unfinished : w.isFinished = false
  unlimited : w.sink.room? = none

/-! ### Events -/

/-- The writer after an event whose text the sink took. -/
def wrote (w : TextWriter) (e : Event) : TextWriter :=
  { w with
    sink := ⟨w.sink.bytes ++ ((w.layout.place e).1 ++ e.markup).toUTF8, none⟩
    layout := (w.layout.place e).2 }

def wroteAll (w : TextWriter) (es : List Event) : TextWriter := es.foldl wrote w

theorem Works.wrote {w : TextWriter} (hw : w.Works) (e : Event) : (w.wrote e).Works :=
  ⟨hw.unfinished, rfl⟩

theorem Works.wroteAll {w : TextWriter} (hw : w.Works) (es : List Event) : (w.wroteAll es).Works := by
  induction es generalizing w with
  | nil => exact hw
  | cons e r ih => exact ih (hw.wrote e)

@[simp] theorem names_wroteAll (w : TextWriter) (es : List Event) :
    (w.wroteAll es).names = w.names := by
  induction es generalizing w with
  | nil => rfl
  | cons e r ih => exact ih (w.wrote e)

@[simp] theorem pending_wroteAll (w : TextWriter) (es : List Event) :
    (w.wroteAll es).pending? = w.pending? := by
  induction es generalizing w with
  | nil => rfl
  | cons e r ih => exact ih (w.wrote e)

theorem emit_eq {w : TextWriter} (h : w.sink.room? = none) (e : Event) :
    w.emit e = (.ok (), w.wrote e) := by
  simp only [emit, Sink.write, h, if_true, wrote]

theorem emitAll_eq {w : TextWriter} (h : w.sink.room? = none) (es : List Event) :
    emitAll es w = (.ok (), w.wroteAll es) := by
  induction es generalizing w with
  | nil => rfl
  | cons e r ih =>
    rw [emitAll, emit_eq h]
    exact ih rfl

/-! ### The start tag held back -/

/-- The writer once the start tag held back is written. -/
def flushed (w : TextWriter) : TextWriter :=
  match w.pending? with
  | none => w
  | some tag => { w with pending? := none }.wrote (.start tag)

theorem Works.flushed {w : TextWriter} (hw : w.Works) : w.flushed.Works := by
  rw [TextWriter.flushed]
  split
  · exact hw
  · exact ⟨hw.unfinished, rfl⟩

@[simp] theorem names_flushed (w : TextWriter) : w.flushed.names = w.names := by
  rw [flushed]
  split <;> rfl

@[simp] theorem pending_flushed (w : TextWriter) : w.flushed.pending? = none := by
  rw [flushed]
  split
  · assumption
  · rfl

theorem flush_eq {w : TextWriter} (h : w.sink.room? = none) : w.flush = (.ok (), w.flushed) := by
  cases hp : w.pending? with
  | none => simp only [flush, flushed, hp]
  | some tag =>
    simp only [flush, flushed, hp]
    rw [emit_eq (w := { w with pending? := none }) h]

/-! ### Calls -/

/-- The events of a call that adds text, verbatim content or a comment. -/
def leafEvents : Call → List Event
  | .text content => [.text content]
  | .raw content => (cdataSections content).map .cdata
  | .comment content => [.comment (commentText content)]
  | _ => []

def IsLeaf : Call → Prop
  | .text _ | .raw _ | .comment _ => True
  | _ => False

theorem perform_leaf {w : TextWriter} (hw : w.Works) {c : Call} (hc : IsLeaf c) :
    perform c w = (.ok (), w.flushed.wroteAll (leafEvents c)) := by
  rw [perform, if_neg (by simp [hw.unfinished])]
  cases c with
  | text t =>
    simp only [performOpen, flush_eq hw.unlimited, Step.andThen]
    exact emit_eq hw.flushed.unlimited _
  | raw t =>
    simp only [performOpen, flush_eq hw.unlimited, Step.andThen]
    exact emitAll_eq hw.flushed.unlimited _
  | comment t =>
    simp only [performOpen, flush_eq hw.unlimited, Step.andThen]
    exact emit_eq hw.flushed.unlimited _
  | element _ => exact hc.elim
  | attr _ _ => exact hc.elim
  | close => exact hc.elim

theorem perform_element {w : TextWriter} (hw : w.Works) (name : String) :
    perform (.element name) w =
      (.ok (), { w.flushed with pending? := some ⟨name, []⟩, names := name :: w.names }) := by
  rw [perform, if_neg (by simp [hw.unfinished])]
  simp only [performOpen, flush_eq hw.unlimited, Step.andThen, names_flushed]

theorem perform_attr {w : TextWriter} (hw : w.Works) (name value : String) :
    perform (.attr name value) w =
      match w.pending? with
      | none => (.error (.misplacedAttribute name), w)
      | some tag =>
        (.ok (), { w with pending? := some { tag with attributes := tag.attributes ++ [(name, value)] } }) := by
  rw [perform, if_neg (by simp [hw.unfinished])]
  rfl

def endEvent (w : TextWriter) (name : String) : Event :=
  match w.pending? with
  | some tag => .empty tag
  | none => .close name

/-- The writer after the end of the innermost element; the elements `names` stay open. -/
def closed (w : TextWriter) (name : String) (names : List String) : TextWriter :=
  { w with names := names, pending? := none }.wrote (w.endEvent name)

theorem close_eq {w : TextWriter} (hw : w.Works) {name : String} {names : List String}
    (h : w.names = name :: names) : w.close = (.ok (), w.closed name names) := by
  have he (e : Event) := emit_eq (w := { w with names := names, pending? := none }) hw.unlimited e
  cases hp : w.pending? with
  | none => simp only [close, closed, endEvent, h, hp, he]
  | some tag => simp only [close, closed, endEvent, h, hp, he]

theorem perform_close {w : TextWriter} (hw : w.Works) :
    perform .close w =
      match w.names with
      | [] => (.error .noOpenElement, w)
      | name :: names => (.ok (), w.closed name names) := by
  rw [perform, if_neg (by simp [hw.unfinished])]
  simp only [performOpen]
  split
  · rename_i h
    simp only [close, h]
  · rename_i h
    exact close_eq hw h

theorem Works.perform {w : TextWriter} (hw : w.Works) (c : Call) :
    (TextWriter.perform c w).2.Works := by
  cases c with
  | element name =>
    rw [perform_element hw]
    exact ⟨hw.flushed.unfinished, hw.flushed.unlimited⟩
  | attr name value =>
    rw [perform_attr hw]
    split
    · exact hw
    · exact ⟨hw.unfinished, hw.unlimited⟩
  | text t =>
    rw [perform_leaf hw (c := .text t) trivial]
    exact hw.flushed.wroteAll _
  | raw t =>
    rw [perform_leaf hw (c := .raw t) trivial]
    exact hw.flushed.wroteAll _
  | comment t =>
    rw [perform_leaf hw (c := .comment t) trivial]
    exact hw.flushed.wroteAll _
  | close =>
    rw [perform_close hw]
    split
    · exact hw
    · exact ⟨hw.unfinished, rfl⟩

/-! ### The gauge -/

def gauge (w : TextWriter) : Gauge := ⟨w.names.length, w.pending?.isSome⟩

theorem perform_gauge {w : TextWriter} (hw : w.Works) (c : Call) :
    (perform c w).1 = (w.gauge.perform c).1 ∧ (perform c w).2.gauge = (w.gauge.perform c).2 := by
  cases c with
  | element name =>
    rw [perform_element hw]
    exact ⟨rfl, rfl⟩
  | attr name value =>
    rw [perform_attr hw]
    rcases w with ⟨sink, layout, names, _ | tag, finished⟩ <;> exact ⟨rfl, rfl⟩
  | text t =>
    rw [perform_leaf hw (c := .text t) trivial]
    exact ⟨rfl, by simp [gauge, Gauge.perform]⟩
  | raw t =>
    rw [perform_leaf hw (c := .raw t) trivial]
    exact ⟨rfl, by simp [gauge, Gauge.perform]⟩
  | comment t =>
    rw [perform_leaf hw (c := .comment t) trivial]
    exact ⟨rfl, by simp [gauge, Gauge.perform]⟩
  | close =>
    rw [perform_close hw]
    rcases w with ⟨sink, layout, _ | ⟨name, names⟩, pending, finished⟩ <;> exact ⟨rfl, rfl⟩

instance : Gauged TextWriter where
  Works := Works
  gauge := gauge
  depth_gauge _ := rfl
  works_perform c hw := hw.perform c
  answer_eq c hw := (perform_gauge hw c).1
  gauge_perform c hw := (perform_gauge hw c).2

end TextWriter

end XamlDoc.Markup.Xml
