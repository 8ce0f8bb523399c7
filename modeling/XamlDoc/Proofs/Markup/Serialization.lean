import XamlDoc.Proofs.Markup.TextState

/-!
# The text of a tree

The same calls, made on a tree under construction and on a compact text writer with room for
everything: both answer alike, and the finished text is the markup of the finished tree. The text
lags behind the tree by one start tag, the one of an innermost element without content.
-/

namespace XamlDoc.Markup.Xml

open Writer (after answers)

/-! ### Markup of contents -/

theorem contentsMarkup_append (a b : List Content) :
    contentsMarkup (a ++ b) = contentsMarkup a ++ contentsMarkup b := by
  induction a with
  | nil => simp [contentsMarkup]
  | cons c r ih => simp only [List.cons_append, contentsMarkup, ih, String.append_assoc]

theorem contentsMarkup_singleton (c : Content) : contentsMarkup [c] = contentMarkup c := by
  simp [contentsMarkup]

theorem contentMarkup_element_nil (name : String) (attributes : List Attribute) :
    contentMarkup (.element name attributes []) = (Event.empty ⟨name, attributes⟩).markup := by
  rw [contentMarkup]

theorem contentMarkup_element (name : String) (attributes : List Attribute) {children : List Content}
    (h : children ≠ []) :
    contentMarkup (.element name attributes children) =
      (Event.start ⟨name, attributes⟩).markup ++ contentsMarkup children ++ (Event.close name).markup := by
  cases children with
  | nil => exact absurd rfl h
  | cons c r => rw [contentMarkup, contentsMarkup]

/-! ### Markup of a tree under construction -/

def frameTag (f : Frame) : Tag := ⟨f.name, f.attributes⟩

/-- Start tags and contents of open elements, innermost first. -/
def framesMarkup : List Frame → String
  | [] => ""
  | f :: r =>
    framesMarkup r ++ ((Event.start (frameTag f)).markup ++ contentsMarkup f.content.reverse)

/-- The start tag that may still get attributes: the innermost element has no content. -/
def pendingTag? : List Frame → Option Tag
  | [] => none
  | f :: _ => if f.content.isEmpty then some (frameTag f) else none

/-- What is written of a tree under construction: all but the pending start tag. -/
def builtMarkup (b : TreeBuilder) : String :=
  contentsMarkup b.roots ++
    match b.frames with
    | [] => ""
    | f :: r => if f.content.isEmpty then framesMarkup r else framesMarkup (f :: r)

/-- What is written once the pending start tag is. -/
def fullMarkup (b : TreeBuilder) : String := contentsMarkup b.roots ++ framesMarkup b.frames

theorem builtMarkup_of_pending {b : TreeBuilder} {tag : Tag} (h : pendingTag? b.frames = some tag) :
    builtMarkup b ++ (Event.start tag).markup = fullMarkup b := by
  rcases b with ⟨_ | ⟨⟨name, attributes, _ | ⟨c, content⟩⟩, r⟩, done⟩
  · cases h
  · cases h
    simp [builtMarkup, fullMarkup, framesMarkup, contentsMarkup, frameTag, String.append_assoc]
  · cases h

theorem builtMarkup_of_no_pending {b : TreeBuilder} (h : pendingTag? b.frames = none) :
    builtMarkup b = fullMarkup b := by
  rcases b with ⟨_ | ⟨⟨name, attributes, _ | ⟨c, content⟩⟩, r⟩, done⟩
  · rfl
  · cases h
  · rfl

theorem pendingTag?_push (b : TreeBuilder) (c : Content) : pendingTag? (b.push c).frames = none := by
  rcases b with ⟨_ | ⟨f, r⟩, done⟩ <;> rfl

theorem fullMarkup_push (b : TreeBuilder) (c : Content) :
    fullMarkup (b.push c) = fullMarkup b ++ contentMarkup c := by
  rcases b with ⟨_ | ⟨f, r⟩, done⟩
  · simp [fullMarkup, TreeBuilder.push, TreeBuilder.roots, framesMarkup, contentsMarkup_append,
      contentsMarkup_singleton]
  · simp [fullMarkup, TreeBuilder.push, TreeBuilder.roots, framesMarkup, contentsMarkup_append,
      contentsMarkup_singleton, frameTag, String.append_assoc]

theorem builtMarkup_push (b : TreeBuilder) (c : Content) :
    builtMarkup (b.push c) = fullMarkup b ++ contentMarkup c := by
  rw [builtMarkup_of_no_pending (pendingTag?_push b c), fullMarkup_push]

def frameEnd (f : Frame) : Event :=
  if f.content.isEmpty then .empty (frameTag f) else .close f.name

/-- To end the innermost element completes its markup. -/
theorem builtMarkup_end (f : Frame) (r : List Frame) (done : List Content) :
    builtMarkup ⟨f :: r, done⟩ ++ (frameEnd f).markup = fullMarkup ⟨r, done⟩ ++ contentMarkup f.close := by
  rcases f with ⟨name, attributes, _ | ⟨c, content⟩⟩
  · simp [builtMarkup, fullMarkup, frameEnd, frameTag, Frame.close, TreeBuilder.roots,
      contentMarkup_element_nil]
  · have hne : (c :: content).reverse ≠ [] := by simp
    have hc : contentMarkup (Frame.close ⟨name, attributes, c :: content⟩) =
        (Event.start ⟨name, attributes⟩).markup ++ contentsMarkup (c :: content).reverse
          ++ (Event.close name).markup := contentMarkup_element name attributes hne
    rw [hc]
    simp only [builtMarkup, fullMarkup, frameEnd, frameTag, framesMarkup, TreeBuilder.roots,
      List.isEmpty_cons, Bool.false_eq_true, if_false, String.append_assoc]

/-! ### A text writer beside a tree -/

/-- The text writer has been called as the tree builder has. -/
structure Mirrors (b : TreeBuilder) (w : TextWriter) : Prop where
  works : w.Works
  compact : w.layout.step? = none
  names : w.names = b.frames.map Frame.name
  pending : w.pending? = pendingTag? b.frames
  bytes : w.sink.bytes = (builtMarkup b).toUTF8

namespace TextWriter

theorem lead_of_compact {w : TextWriter} (h : w.layout.step? = none) (e : Event) :
    (w.layout.place e).1 = "" ∧ (w.layout.place e).2.step? = none := by
  cases e <;> simp [Layout.place, Layout.lead, h]

theorem bytes_wrote {w : TextWriter} (h : w.layout.step? = none) (e : Event) :
    (w.wrote e).sink.bytes = w.sink.bytes ++ e.markup.toUTF8 := by
  simp only [wrote, (lead_of_compact h e).1, String.empty_append]

theorem step_wrote {w : TextWriter} (h : w.layout.step? = none) (e : Event) :
    (w.wrote e).layout.step? = none := (lead_of_compact h e).2

theorem bytes_wroteAll {w : TextWriter} (h : w.layout.step? = none) (es : List Event) :
    (w.wroteAll es).sink.bytes = w.sink.bytes ++ (String.join (es.map Event.markup)).toUTF8 ∧
      (w.wroteAll es).layout.step? = none := by
  induction es generalizing w with
  | nil => simp [wroteAll, h]
  | cons e r ih =>
    obtain ⟨hb, hs⟩ := ih (step_wrote h e)
    refine ⟨?_, hs⟩
    rw [show w.wroteAll (e :: r) = (w.wrote e).wroteAll r from rfl, hb, bytes_wrote h]
    simp [String.join_cons, ByteArray.append_assoc]

end TextWriter

open TextWriter

theorem mirrors_new : Mirrors TreeBuilder.empty (TextWriter.new .unlimited .compact) :=
  ⟨⟨rfl, rfl⟩, rfl, rfl, rfl, rfl⟩

theorem bytes_flushed {b : TreeBuilder} {w : TextWriter} (h : Mirrors b w) :
    w.flushed.sink.bytes = (fullMarkup b).toUTF8 ∧ w.flushed.layout.step? = none := by
  cases hp : w.pending? with
  | none =>
    rw [flushed, hp]
    refine ⟨?_, h.compact⟩
    rw [← builtMarkup_of_no_pending (h.pending ▸ hp)]
    exact h.bytes
  | some tag =>
    rw [flushed, hp]
    have hc : ({ w with pending? := none } : TextWriter).layout.step? = none := h.compact
    refine ⟨?_, step_wrote hc _⟩
    rw [bytes_wrote hc, ← builtMarkup_of_pending (h.pending ▸ hp)]
    show w.sink.bytes ++ _ = _
    rw [h.bytes]
    simp

theorem Mirrors.leaf {b : TreeBuilder} {w : TextWriter} (h : Mirrors b w) (k : Content)
    {es : List Event} (hk : String.join (es.map Event.markup) = contentMarkup k) :
    Mirrors (b.push k) (w.flushed.wroteAll es) := by
  obtain ⟨hb, hs⟩ := bytes_flushed h
  obtain ⟨hb', hs'⟩ := bytes_wroteAll hs es
  have hn : (b.push k).frames.map Frame.name = b.frames.map Frame.name := by
    rcases b with ⟨_ | ⟨f, r⟩, done⟩ <;> rfl
  refine ⟨h.works.flushed.wroteAll es, hs', ?_, ?_, ?_⟩
  · rw [names_wroteAll, names_flushed, hn]
    exact h.names
  · rw [pending_wroteAll, pending_flushed, pendingTag?_push]
  · rw [hb', hb, hk, builtMarkup_push]
    simp

theorem Mirrors.close {f : Frame} {r : List Frame} {done : List Content} {w : TextWriter}
    (h : Mirrors ⟨f :: r, done⟩ w) :
    Mirrors (TreeBuilder.push ⟨r, done⟩ f.close) (w.closed f.name (r.map Frame.name)) := by
  have he : w.endEvent f.name = frameEnd f := by
    rw [endEvent, h.pending, pendingTag?, frameEnd]
    by_cases hc : f.content.isEmpty <;> simp [hc]
  have hc : ({ w with names := r.map Frame.name, pending? := none } : TextWriter).layout.step? = none :=
    h.compact
  have hn : (TreeBuilder.push ⟨r, done⟩ f.close).frames.map Frame.name = r.map Frame.name := by
    cases r <;> rfl
  rw [closed, he]
  refine ⟨⟨h.works.unfinished, rfl⟩, step_wrote hc _, hn.symm, ?_, ?_⟩
  · rw [pendingTag?_push]
    rfl
  · rw [bytes_wrote hc, builtMarkup_push, ← builtMarkup_end]
    show w.sink.bytes ++ _ = _
    rw [h.bytes]
    simp

/-- Each call keeps the writers beside each other, and gets the same answer from both. -/
theorem Mirrors.perform {b : TreeBuilder} {w : TextWriter} (h : Mirrors b w) (c : Call) :
    (Writer.perform c b).1 = (Writer.perform c w).1 ∧
      Mirrors (Writer.perform c b).2 (Writer.perform c w).2 := by
  show (TreeBuilder.perform c b).1 = (TextWriter.perform c w).1 ∧
    Mirrors (TreeBuilder.perform c b).2 (TextWriter.perform c w).2
  cases c with
  | element name =>
    rw [perform_element h.works]
    obtain ⟨hb, hs⟩ := bytes_flushed h
    refine ⟨rfl, ⟨h.works.flushed.unfinished, h.works.flushed.unlimited⟩, hs, ?_, rfl, ?_⟩
    · show name :: w.names = _
      rw [h.names]
      rfl
    · exact hb
  | attr name value =>
    rw [perform_attr h.works, h.pending]
    -- a start tag is pending just as long as the innermost element has no content
    rcases b with ⟨_ | ⟨⟨n, attributes, _ | ⟨c, content⟩⟩, r⟩, done⟩
    · exact ⟨rfl, h⟩
    · exact ⟨rfl, ⟨h.works.unfinished, h.works.unlimited⟩, h.compact, h.names, rfl, h.bytes⟩
    · exact ⟨rfl, h⟩
  | text t =>
    rw [perform_leaf h.works (c := .text t) trivial]
    exact ⟨rfl, h.leaf (.text t) (by simp [leafEvents, contentMarkup])⟩
  | raw t =>
    rw [perform_leaf h.works (c := .raw t) trivial]
    exact ⟨rfl, h.leaf (.raw t) (by simp [leafEvents, contentMarkup, Function.comp_def])⟩
  | comment t =>
    rw [perform_leaf h.works (c := .comment t) trivial]
    exact ⟨rfl, h.leaf (.comment t) (by simp [leafEvents, contentMarkup])⟩
  | close =>
    rw [perform_close h.works]
    rcases b with ⟨_ | ⟨f, r⟩, done⟩
    · rw [h.names]
      exact ⟨rfl, h⟩
    · rw [h.names]
      exact ⟨rfl, h.close⟩

theorem Mirrors.after {b : TreeBuilder} {w : TextWriter} (h : Mirrors b w) (cs : List Call) :
    answers cs b = answers cs w ∧ Mirrors (after cs b) (after cs w) := by
  induction cs generalizing b w with
  | nil => exact ⟨rfl, h⟩
  | cons c r ih =>
    obtain ⟨ha, hm⟩ := h.perform c
    obtain ⟨hr, hm⟩ := ih hm
    refine ⟨?_, hm⟩
    rw [answers, answers, ha, hr]

/-! ### The finished text -/

/-- To end the innermost element first makes no difference for the finished tree. -/
theorem finish_close (f : Frame) (r : List Frame) (done : List Content) :
    (TreeBuilder.push ⟨r, done⟩ f.close).finish = TreeBuilder.finish ⟨f :: r, done⟩ := by
  cases r <;> rfl

theorem Mirrors.finish {b : TreeBuilder} {w : TextWriter} (h : Mirrors b w) :
    ∃ w', w.finish = (.ok (), w') ∧ w'.sink.bytes = (contentsMarkup b.finish).toUTF8 := by
  suffices hs : ∃ w', closeMany w.names.length w = (.ok (), w') ∧
      w'.sink.bytes = (contentsMarkup b.finish).toUTF8 by
    obtain ⟨w', hc, hb⟩ := hs
    refine ⟨{ w' with isFinished := true }, ?_, hb⟩
    rw [TextWriter.finish, if_neg (by simp [h.works.unfinished]), hc]
    rfl
  rcases b with ⟨frames, done⟩
  induction hn : frames.length generalizing frames done w with
  | zero =>
    obtain rfl := List.length_eq_zero_iff.1 hn
    have hw : w.names = [] := h.names
    refine ⟨w, by rw [hw]; rfl, ?_⟩
    rw [h.bytes, builtMarkup_of_no_pending rfl]
    simp [fullMarkup, framesMarkup, TreeBuilder.finish, TreeBuilder.closeFrames, TreeBuilder.roots]
  | succ n ih =>
    obtain ⟨f, r, rfl⟩ := List.exists_cons_of_length_eq_add_one hn
    have hw : w.names = f.name :: r.map Frame.name := h.names
    have hl : (TreeBuilder.push ⟨r, done⟩ f.close).frames.length = n := by
      cases r <;> simp [TreeBuilder.push] at hn ⊢ <;> omega
    obtain ⟨w', hc, hb⟩ := ih _ _ h.close hl
    refine ⟨w', ?_, ?_⟩
    · rw [hw]
      show (w.close).andThen (closeMany (r.map Frame.name).length) = _
      rw [close_eq h.works hw]
      exact hc
    · rw [hb]
      exact congrArg (fun c => (contentsMarkup c).toUTF8) (finish_close f r done)

/-! ### Agreement -/

theorem perform_of_refused {b : TreeBuilder} {w : TextWriter} (h : Mirrors b w) (c : Call) :
    (Writer.perform c b).1 = .ok () ∨
      ((Writer.perform c b).2 = b ∧ (Writer.perform c w).2 = w) := by
  show (TreeBuilder.perform c b).1 = .ok () ∨
    ((TreeBuilder.perform c b).2 = b ∧ (TextWriter.perform c w).2 = w)
  cases c with
  | element name => exact Or.inl rfl
  | text t => exact Or.inl rfl
  | raw t => exact Or.inl rfl
  | comment t => exact Or.inl rfl
  | attr name value =>
    rw [perform_attr h.works, h.pending]
    rcases b with ⟨_ | ⟨⟨n, attributes, _ | ⟨c, content⟩⟩, r⟩, done⟩
    · exact Or.inr ⟨rfl, rfl⟩
    · exact Or.inl rfl
    · exact Or.inr ⟨rfl, rfl⟩
  | close =>
    rw [perform_close h.works, h.names]
    rcases b with ⟨_ | ⟨f, r⟩, done⟩
    · exact Or.inr ⟨rfl, rfl⟩
    · exact Or.inl rfl

/-- After any calls, accepted or refused, the writers have given the same answers and have equally many
elements open; the next call gets the same answer from both, and if it is refused both are left as
they were; and to finish the text writer succeeds and leaves the markup of the finished tree. -/
theorem finished_text_eq_markup (cs : List Call) :
    let b := after cs TreeBuilder.empty
    let w := after cs (TextWriter.new .unlimited .compact)
    answers cs TreeBuilder.empty = answers cs (TextWriter.new .unlimited .compact) ∧
      Writer.depth b = Writer.depth w ∧
      (∀ c, (Writer.perform c b).1 = (Writer.perform c w).1 ∧
        ((Writer.perform c b).1 = .ok () ∨
          ((Writer.perform c b).2 = b ∧ (Writer.perform c w).2 = w))) ∧
      ∃ w', w.finish = (.ok (), w') ∧ w'.sink.bytes = (contentsMarkup b.finish).toUTF8 := by
  obtain ⟨ha, hm⟩ := mirrors_new.after cs
  have hd : (after cs TreeBuilder.empty).frames.length =
      (after cs (TextWriter.new .unlimited .compact)).names.length := by
    rw [hm.names, List.length_map]
  exact ⟨ha, hd, fun c => ⟨(hm.perform c).1, perform_of_refused hm c⟩, hm.finish⟩

end XamlDoc.Markup.Xml
