import XamlDoc.Markup.Xml.Bounded
import XamlDoc.Proofs.Markup.Limited
import XamlDoc.Proofs.Markup.Events
import XamlDoc.Proofs.Markup.Run

/-!
# Text writers in a memory

A run that the memory is too small for has written the beginning of the text that it would have written. This only
happens where the elements that are open are indented too far.
-/

namespace XamlDoc.Markup.Xml

/-! ### Texts in sinks -/

namespace Sink

/-- The sink takes everything, and has taken this text. -/
def Holds (k : Sink) (s : String) : Prop := k.room? = none ∧ k.bytes = s.toUTF8

theorem holds_unlimited : unlimited.Holds "" := ⟨rfl, rfl⟩

theorem Holds.text {k : Sink} {s : String} (h : k.Holds s) : k.text = s := by
  rw [Sink.text, h.2, decode_toUTF8]

theorem kept_holds (s : String) : Kept fun k => ∃ more, k.Holds (s ++ more) := by
  rintro k t ⟨more, hr, hb⟩
  rw [write_unlimited hr]
  exact ⟨more ++ t, rfl, by simp [hb, ByteArray.append_assoc]⟩

end Sink

namespace TextWriter

variable {α : Type} {w : TextWriter}

/-- If the sink of the first writer holds a text, that of the second holds one that begins with it. -/
def Precedes (v w : TextWriter) : Prop := ∀ s, v.sink.Holds s → ∃ more, w.sink.Holds (s ++ more)

theorem Precedes.refl (w : TextWriter) : w.Precedes w := fun s h => ⟨"", by rwa [String.append_empty]⟩

theorem Precedes.trans {u v : TextWriter} (h : u.Precedes v) (h' : v.Precedes w) : u.Precedes w := by
  intro s hs
  obtain ⟨more, hm⟩ := h s hs
  obtain ⟨rest, hr⟩ := h' _ hm
  exact ⟨more ++ rest, by rwa [← String.append_assoc]⟩

theorem Uniform.precedes {f : TextWriter → α × TextWriter} (hf : Uniform f) (w : TextWriter) : w.Precedes (f w).2 :=
  fun s h => hf.kept (Sink.kept_holds s) w ⟨"", by rwa [String.append_empty]⟩

/-! ### Runs -/

/-- Once the start tag held back is written, a call for content does what it would have done. -/
theorem perform_flushed (hw : w.Works) {c : Call} (hc : beginsContent c = true) :
    perform c w.flushed = perform c w := by
  have hf : w.flushed.flushed = w.flushed := flushed_of_no_pending (pending_flushed w)
  have leaf (hl : IsLeaf c) : perform c w.flushed = perform c w := by
    rw [perform_leaf hw hl, perform_leaf hw.flushed hl, hf]
  cases c with
  | element name => rw [perform_element hw, perform_element hw.flushed, hf, names_flushed]
  | text _ | raw _ | comment _ => exact leaf trivial
  | attr _ _ | close => cases hc

section

variable [Memory]

theorem attempt_kept {P : Sink → Prop} (hP : Sink.Kept P) (m : Writing α) (w : TextWriter) (h : P w.sink) :
    P (attempt m w).2.sink := by
  induction m generalizing w with
  | done a => exact h
  | perform c next ih =>
    rw [attempt]
    split
    · exact honest_flush.kept hP w h
    · exact ih _ _ ((honest_perform c).kept hP w h)
  | askDepth next ih => exact ih _ w h

/-- A run that the memory is too small for stops on the way of the whole run, at a call for which it is too small. -/
theorem attempt_cases (m : Writing α) (hw : w.Works) :
    attempt m w = (some (m.run w).1, (m.run w).2) ∨ (∃ s ∈ m.steps w, s.1.overflows s.2) ∧
      (attempt m w).1 = none ∧ ∃ rest : Writing α, m.run w = rest.run (attempt m w).2 := by
  induction m generalizing w with
  | done a => exact .inl rfl
  | perform c next ih =>
    rw [attempt]
    split
    · rename_i hc
      refine .inr ⟨⟨_, List.mem_cons_self .., hc⟩, rfl, .perform c next, ?_⟩
      have hb : beginsContent c = true := by
        simp only [overflows, Bool.and_eq_true] at hc
        exact hc.1.2
      rw [flush_eq hw.unlimited, Writing.run, Writing.run]
      show _ = Writing.run (next (perform c w.flushed).1) (perform c w.flushed).2
      rw [perform_flushed hw hb]
      rfl
    · obtain h | ⟨⟨s, hs, ho⟩, hn, hr⟩ := ih _ (hw.perform c)
      · exact .inl h
      · exact .inr ⟨⟨s, List.mem_cons_of_mem _ hs, ho⟩, hn, hr⟩
  | askDepth next ih => exact ih _ hw

end

/-! ### Indentation -/

/-- The indentation counts the open elements whose start tags are written. -/
structure Counts (step : Nat) (w : TextWriter) : Prop where
  size : w.layout.step?.getD 0 = step
  indent : w.layout.indent + (if w.pending?.isSome then step else 0) = step * w.names.length

namespace Counts

theorem new {l : Layout} (hl : l.indent = 0) : (TextWriter.new .unlimited l).Counts (l.step?.getD 0) := ⟨rfl, hl⟩

variable {step : Nat} (h : w.Counts step)
include h

theorem flushed : w.flushed.Counts step := by
  obtain ⟨sink, layout, names, pending?, isFinished⟩ := w
  cases pending? with
  | none => exact h
  | some tag =>
    refine ⟨h.size, Eq.trans ?_ h.indent⟩
    rw [← h.size]
    rfl

/-- Characters and comments do not change the indentation. -/
theorem leaf {c : Call} (hc : IsLeaf c) : (w.wroteAll (leafEvents c)).Counts step := by
  have cdatas (sections : List String) : (w.wroteAll (sections.map .cdata)).Counts step := by
    induction sections generalizing w with
    | nil => exact h
    | cons t r ih => exact ih ⟨h.size, h.indent⟩
  cases c with
  | text _ | comment _ => exact ⟨h.size, h.indent⟩
  | raw content => exact cdatas _
  | element _ | attr _ _ | close => exact hc.elim

theorem closed {name : String} {names : List String} (hn : w.names = name :: names) :
    (w.closed name names).Counts step := by
  obtain ⟨sink, layout, _, pending?, isFinished⟩ := w
  cases hn
  have hi : layout.indent + (if pending?.isSome then step else 0) = step * names.length + step := h.indent
  cases pending? with
  | none =>
    refine ⟨h.size, ?_⟩
    show layout.indent - layout.step?.getD 0 + 0 = step * names.length
    rw [show layout.step?.getD 0 = step from h.size, show layout.indent = step * names.length + step from hi]
    omega
  | some tag => exact ⟨h.size, Nat.add_right_cancel hi⟩

theorem perform (hw : w.Works) (c : Call) : (TextWriter.perform c w).2.Counts step := by
  have leaf (hl : IsLeaf c) : (TextWriter.perform c w).2.Counts step := by
    rw [perform_leaf hw hl]
    exact h.flushed.leaf hl
  cases c with
  | element name =>
    have hi : w.flushed.layout.indent + 0 = step * w.flushed.names.length := by
      have hi := h.flushed.indent
      rwa [pending_flushed] at hi
    rw [perform_element hw]
    refine ⟨h.flushed.size, ?_⟩
    rw [names_flushed] at hi
    exact congrArg (· + step) hi
  | text _ | raw _ | comment _ => exact leaf trivial
  | attr name value =>
    rw [perform_attr hw]
    cases hp : w.pending? with
    | none => exact h
    | some tag =>
      refine ⟨h.size, Eq.trans ?_ h.indent⟩
      rw [hp]
      rfl
  | close =>
    rw [perform_close hw]
    cases hn : w.names with
    | nil => exact h
    | cons name names => exact h.closed hn

theorem steps (hw : w.Works) (m : Writing α) {s : Markup.Step TextWriter} (hs : s ∈ m.steps w) : s.1.Counts step := by
  induction m generalizing w with
  | done a => cases hs
  | perform c next ih =>
    obtain rfl | hs := List.mem_cons.1 hs
    · exact h
    · exact ih _ (h.perform hw c) (hw.perform c) hs
  | askDepth next ih => exact ih _ h hw hs

/-- What does not fit is the indentation of the elements that are open. -/
theorem not_fits [Memory] {c : Call} (ho : w.overflows c) : ¬ Memory.fits (step * Writer.depth w) := by
  obtain ⟨sink, layout, names, pending?, isFinished⟩ := w
  simp only [overflows, Bool.and_eq_true] at ho
  cases pending? with
  | none => cases ho.2
  | some tag =>
    have hi : (layout.place (.start tag)).2.indent = step * names.length :=
      Eq.trans (congrArg (layout.indent + ·) h.size) h.indent
    have ho : (!Memory.fits (layout.place (.start tag)).2.indent) = true := ho.2
    rw [hi, Bool.not_eq_true'] at ho
    exact Bool.eq_false_iff.1 ho

end Counts

end TextWriter

end XamlDoc.Markup.Xml
