import XamlDoc.Proofs.Markup.Whole
import XamlDoc.Markup.Xml.Text

/-!
# A text writer that may fail

Over a sink with little room every event may fail to be written. A call that fails opens no element, but a
close takes its element off the list of open ones before it writes the end, so an element is ended even if
that fails. To close several elements stops at the first end for which there is no room.
-/

namespace XamlDoc.Markup.Xml

/-! ### Room -/

/-- There is room for the text. -/
def Sink.Fits (k : Sink) (s : String) : Prop := ∀ room, k.room? = some room → s.utf8ByteSize ≤ room

namespace Sink

theorem fits_empty (k : Sink) : k.Fits "" := fun _ _ => Nat.zero_le _

theorem write_fits {k : Sink} {s : String} : (k.write s).1 = true ↔ k.Fits s := by
  rcases k with ⟨bytes, _ | room⟩
  · simp [write, Fits]
  · by_cases h : s.utf8ByteSize ≤ room <;> simp [write, Fits, h]

theorem fits_append {k : Sink} {s : String} (h : k.Fits s) (t : String) :
    k.Fits (s ++ t) ↔ (k.write s).2.Fits t := by
  rcases k with ⟨bytes, _ | room⟩
  · simp [write, Fits]
  · have hs : s.utf8ByteSize ≤ room := h room rfl
    simp only [write, Fits, hs, if_true, Option.some.injEq, forall_eq', String.utf8ByteSize_append]
    omega

theorem fits_of_append {k : Sink} {s t : String} (h : k.Fits (s ++ t)) : k.Fits s := by
  intro room hr
  have hst := h room hr
  rw [String.utf8ByteSize_append] at hst
  omega

end Sink

namespace TextWriter

/-! ### Open elements -/

/-- What writing leaves alone: the open elements, and whether the writer is finished. -/
def frame (w : TextWriter) : List String × Bool := (w.names, w.isFinished)

theorem frame_emit (w : TextWriter) (e : Event) : (w.emit e).2.frame = w.frame := by
  simp only [emit]
  split <;> rfl

theorem frame_andThen {s : Step} {next : TextWriter → Step} {f : List String × Bool} (hs : s.2.frame = f)
    (hn : ∀ w, (next w).2.frame = w.frame) : (s.andThen next).2.frame = f := by
  rcases s with ⟨_ | _, w⟩
  · exact hs
  · exact (hn w).trans hs

theorem frame_emitAll (es : List Event) (w : TextWriter) : (emitAll es w).2.frame = w.frame := by
  induction es generalizing w with
  | nil => rfl
  | cons e r ih => exact frame_andThen (w.frame_emit e) ih

theorem frame_flush (w : TextWriter) : w.flush.2.frame = w.frame := by
  rw [flush]
  split
  · rfl
  · exact frame_emit _ _

theorem frame_close (w : TextWriter) : w.close.2.frame = (w.names.tail, w.isFinished) := by
  rw [close]
  split
  · rename_i h
    rw [frame, h]
    rfl
  · rename_i h
    rw [h]
    simp only
    split <;> exact frame_emit _ _

/-- What a call makes of the open elements: nothing, or it opens one, or it ends one, which a close that fails
may do as well. -/
theorem frame_perform (c : Call) (w : TextWriter) :
    ((Writer.perform c w).2.frame = w.frame ∧
        ((Writer.perform c w).1 = .ok () → (∀ name, c ≠ .element name) ∧ c ≠ .close)) ∨
      (∃ name, c = .element name ∧ (Writer.perform c w).2.frame = (name :: w.names, w.isFinished)) ∨
      c = .close ∧ w.names ≠ [] ∧ (Writer.perform c w).2.frame = (w.names.tail, w.isFinished) := by
  rw [show Writer.perform c w = perform c w from rfl, perform]
  split
  · exact .inl ⟨rfl, nofun⟩
  · cases c with
    | element name =>
      have hf := w.frame_flush
      simp only [performOpen]
      rcases hr : w.flush with ⟨_ | _, w'⟩
      · rw [hr] at hf
        exact .inl ⟨hf, nofun⟩
      · rw [hr] at hf
        obtain ⟨hn, hi⟩ := Prod.mk.inj hf
        exact .inr (.inl ⟨name, rfl, Prod.ext (congrArg (name :: ·) hn) hi⟩)
    | attr name value =>
      rw [performOpen]
      split
      · exact .inl ⟨rfl, nofun⟩
      · exact .inl ⟨rfl, fun _ => ⟨nofun, nofun⟩⟩
    | text t => exact .inl ⟨frame_andThen w.frame_flush fun w => w.frame_emit _, fun _ => ⟨nofun, nofun⟩⟩
    | raw t => exact .inl ⟨frame_andThen w.frame_flush (frame_emitAll _), fun _ => ⟨nofun, nofun⟩⟩
    | comment t => exact .inl ⟨frame_andThen w.frame_flush fun w => w.frame_emit _, fun _ => ⟨nofun, nofun⟩⟩
    | close =>
      by_cases hn : w.names = []
      · have hc : w.close = (.error .noOpenElement, w) := by rw [close, hn]
        rw [performOpen, hc]
        exact .inl ⟨rfl, nofun⟩
      · exact .inr (.inr ⟨rfl, hn, w.frame_close⟩)

theorem depth_of_frame {w : TextWriter} {names : List String} {finished : Bool}
    (h : w.frame = (names, finished)) : Writer.depth w = names.length :=
  congrArg (fun f => f.1.length) h

theorem gauge_depth_perform {c : Call} (he : ∀ name, c ≠ .element name) (hc : c ≠ .close) (g : Gauge) :
    (g.perform c).2.depth = g.depth := by
  cases c with
  | element name => exact absurd rfl (he name)
  | close => exact absurd rfl hc
  | attr name value =>
    rw [Gauge.perform]
    split <;> rfl
  | text t | raw t | comment t => rfl

/-- Calls that end only what they opened, up to the first that fails: they leave open what was open before, and
if none fails, just as many more as a writer would that takes everything. -/
theorem depth_calls {cs : List Call} {g g' : Gauge} (h : g.accept? cs = some g') {w : TextWriter} {n : Nat}
    (hd : Writer.depth w = n + g.depth) :
    n ≤ Writer.depth ((Writing.calls cs).run w).2 ∧
      (((Writing.calls cs).run w).1 = .ok () →
        Writer.depth ((Writing.calls cs).run w).2 = n + g'.depth) := by
  induction cs generalizing g w with
  | nil =>
    cases h
    exact ⟨hd ▸ Nat.le_add_right _ _, fun _ => hd⟩
  | cons c r ih =>
    rw [Gauge.accept?] at h
    split at h
    case h_2 => cases h
    rename_i g₁ hg
    have hg₁ : (g.perform c).2 = g₁ := congrArg Prod.snd hg
    -- the first call opens or ends in the writer what it does in the gauge, or nothing if it fails
    have hc : n ≤ Writer.depth (Writer.perform c w).2 ∧ ((Writer.perform c w).1 = .ok () →
        Writer.depth (Writer.perform c w).2 = n + g₁.depth) := by
      rcases frame_perform c w with ⟨hf, hk⟩ | ⟨name, rfl, hf⟩ | ⟨rfl, -, hf⟩
      · have hn : Writer.depth (Writer.perform c w).2 = n + g.depth := (depth_of_frame hf).trans hd
        refine ⟨hn ▸ Nat.le_add_right _ _, fun ha => ?_⟩
        rw [hn, ← hg₁, gauge_depth_perform (hk ha).1 (hk ha).2]
      · have hn : Writer.depth (Writer.perform (.element name) w).2 = n + (g.depth + 1) :=
          (depth_of_frame hf).trans (congrArg (· + 1) hd)
        cases hg
        exact ⟨hn ▸ Nat.le_add_right _ _, fun _ => hn⟩
      · rcases g with ⟨_ | depth, accepts⟩
        · cases hg
        · have hn : Writer.depth (Writer.perform .close w).2 = n + depth := by
            have hl : w.names.length = n + (depth + 1) := hd
            rw [depth_of_frame hf, List.length_tail, hl]
            rfl
          cases hg
          exact ⟨hn ▸ Nat.le_add_right _ _, fun _ => hn⟩
    simp only [Writing.calls, Writing.run]
    cases hr : (Writer.perform c w).1 with
    | error e => exact ⟨hc.1, fun hk => by cases hk⟩
    | ok a => exact ih h (hc.2 hr)

theorem le_depth_closeTo {w : TextWriter} {n : Nat} (h : n ≤ Writer.depth w) :
    n ≤ Writer.depth ((Writing.closeTo n).run w).2 := by
  obtain ⟨a, ha⟩ := accept?_close (Writer.depth w - n) 0 false
  rw [Nat.zero_add] at ha
  exact (depth_calls ha (Nat.add_sub_of_le h).symm).1

theorem depth_closeTo_le {w : TextWriter} {n : Nat} (h : ((Writing.closeTo n).run w).1 = .ok ()) :
    Writer.depth ((Writing.closeTo n).run w).2 ≤ n := by
  rcases Nat.le_total (Writer.depth w) n with hn | hn
  · rw [Writing.run_closeTo_of_le hn]
    exact hn
  · obtain ⟨a, ha⟩ := accept?_close (Writer.depth w - n) 0 false
    rw [Nat.zero_add] at ha
    exact Nat.le_of_eq ((depth_calls ha (Nat.add_sub_of_le hn).symm).2 h)

/-! ### Ending several elements -/

/-- What is written to end the innermost element. -/
def ending (pending? : Option Tag) (name : String) : Event := (pending?.map Event.empty).getD (.close name)

/-- The text that ends these elements, the innermost first. -/
def endsText (layout : Layout) (pending? : Option Tag) : List String → String
  | [] => ""
  | name :: names =>
    let (lead, layout) := layout.place (ending pending? name)
    lead ++ (ending pending? name).markup ++ endsText layout none names

/-- The text that ends the innermost `n` elements. -/
def endText (w : TextWriter) (n : Nat) : String := endsText w.layout w.pending? (w.names.take n)

theorem close_eq_emit {w : TextWriter} {name : String} {names : List String} (h : w.names = name :: names) :
    w.close = { w with names, pending? := none }.emit (ending w.pending? name) := by
  rcases w with ⟨sink, layout, _, _ | tag, finished⟩ <;> cases h <;> rfl

theorem emit_ok {w : TextWriter} {e : Event} (h : w.sink.Fits ((w.layout.place e).1 ++ e.markup)) :
    w.emit e = (.ok (), { w with
      sink := (w.sink.write ((w.layout.place e).1 ++ e.markup)).2, layout := (w.layout.place e).2 }) := by
  simp only [emit, Sink.write_fits.2 h, if_true]

theorem emit_error {w : TextWriter} {e : Event} (h : ¬ w.sink.Fits ((w.layout.place e).1 ++ e.markup)) :
    (w.emit e).1 = .error (.output Sink.full) := by
  have hw := mt Sink.write_fits.1 h
  simp only [emit, hw, if_false, Bool.false_eq_true]

/-- To close as many elements as are open ends them all just if there is room for the ends of all but the
last. -/
theorem depth_closes {w : TextWriter} (hf : w.isFinished = false) {n : Nat} (hn : n ≤ Writer.depth w) :
    Writer.depth ((Writing.calls (List.replicate n .close)).run w).2 = Writer.depth w - n ↔
      w.sink.Fits (w.endText (n - 1)) := by
  induction n generalizing w with
  | zero => exact ⟨fun _ => w.sink.fits_empty, fun _ => rfl⟩
  | succ n ih =>
    obtain ⟨name, names, hw⟩ := List.exists_cons_of_length_pos (Nat.lt_of_lt_of_le (Nat.succ_pos n) hn)
    have hd : Writer.depth w = names.length + 1 := congrArg List.length hw
    have hl : n ≤ names.length := by omega
    let e := ending w.pending? name
    let w₁ : TextWriter := { w with names, pending? := none }
    have hp : Writer.perform .close w = w₁.emit e := by
      show perform .close w = _
      rw [perform, if_neg (by simp [hf])]
      exact close_eq_emit hw
    have ht : w.endText (n + 1 - 1) = endsText w.layout w.pending? ((name :: names).take n) := by
      rw [endText, hw]
      rfl
    rw [List.replicate_succ, Writing.calls, Writing.run, hp, ht]
    have hrest (k : Nat) (hk : n = k + 1) : endsText w.layout w.pending? ((name :: names).take n) =
        ((w₁.layout.place e).1 ++ e.markup) ++ endsText (w₁.layout.place e).2 none (names.take k) := by
      rw [hk]
      rfl
    by_cases hs : w₁.sink.Fits ((w₁.layout.place e).1 ++ e.markup)
    · rw [emit_ok hs]
      cases n with
      | zero => exact ⟨fun _ => w.sink.fits_empty, fun _ => (Nat.sub_eq_of_eq_add hd).symm⟩
      | succ n =>
        have hi := ih (w := { w₁ with
          sink := (w₁.sink.write ((w₁.layout.place e).1 ++ e.markup)).2, layout := (w₁.layout.place e).2 }) hf
          hl
        rw [hrest n rfl, Sink.fits_append hs, hd, Nat.succ_sub_succ]
        exact hi
    · -- the name of the element is gone although its end was not written, and no other is tried
      have hm : Writer.depth (w₁.emit e).2 = names.length := depth_of_frame (frame_emit w₁ e)
      have he : w₁.emit e = (.error (.output Sink.full), (w₁.emit e).2) := Prod.ext (emit_error hs) rfl
      rw [he]
      show Writer.depth (w₁.emit e).2 = _ ↔ _
      cases n with
      | zero => exact ⟨fun _ => w.sink.fits_empty, fun _ => hm.trans (Nat.sub_eq_of_eq_add hd).symm⟩
      | succ n =>
        refine ⟨fun h => ?_, fun h => absurd (Sink.fits_of_append (hrest n rfl ▸ h)) hs⟩
        omega

theorem ending_markup_pos (pending? : Option Tag) (name : String) :
    0 < (ending pending? name).markup.utf8ByteSize := by
  have hs (s t u : String) (hu : 0 < u.utf8ByteSize) : 0 < (s ++ t ++ u).utf8ByteSize := by
    rw [String.utf8ByteSize_append]
    omega
  cases pending? with
  | none => exact hs _ _ ">" (by decide)
  | some tag => exact hs _ _ "/>" (by decide)

theorem fits_endText_of_full {w : TextWriter} (h : w.sink.room? = some 0) {n : Nat} (hn : n ≤ Writer.depth w) :
    w.sink.Fits (w.endText n) ↔ n = 0 := by
  cases n with
  | zero => exact ⟨fun _ => rfl, fun _ => w.sink.fits_empty⟩
  | succ n =>
    obtain ⟨name, names, hw⟩ := List.exists_cons_of_length_pos (Nat.lt_of_lt_of_le (Nat.succ_pos n) hn)
    refine ⟨fun hs => ?_, nofun⟩
    have hz := hs 0 h
    have hp := ending_markup_pos w.pending? name
    simp only [endText, hw, List.take_succ_cons, endsText, String.utf8ByteSize_append] at hz
    omega

/-! ### Finished writers -/

theorem isFinished_run {α : Type} (m : Writing α) (w : TextWriter) : (m.run w).2.isFinished = w.isFinished := by
  induction m generalizing w with
  | done a => rfl
  | perform c next ih =>
    refine (ih _ _).trans ?_
    rcases frame_perform c w with ⟨hf, -⟩ | ⟨name, -, hf⟩ | ⟨-, -, hf⟩ <;> exact congrArg Prod.snd hf
  | askDepth next ih => exact ih _ w

theorem run_finished {α : Type} (m : Writing α) {w : TextWriter} (h : w.isFinished) : (m.run w).2 = w := by
  induction m generalizing w with
  | done a => rfl
  | perform c next ih =>
    have hc : Writer.perform c w = (.error .finished, w) := by
      show perform c w = _
      rw [perform, if_pos h]
    rw [Writing.run, hc]
    exact ih _ h
  | askDepth next ih => exact ih _ h

end TextWriter

end XamlDoc.Markup.Xml
