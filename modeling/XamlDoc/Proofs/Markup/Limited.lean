import XamlDoc.Proofs.Markup.Failing
import XamlDoc.Proofs.Markup.TextState

/-!
# A limited sink beside an unlimited one

A sink with room for `n` bytes takes the first `n` bytes of what it is given. As long as everything fits, a text
writer does the same over it as over an unlimited sink. Once something did not fit, the two may be asked to write
different things, but then there is no room left for any of them.
-/

namespace XamlDoc.Markup.Xml

/-! ### Sinks -/

namespace Sink

theorem extract_of_size_le {b : ByteArray} {n : Nat} (h : b.size ≤ n) : b.extract 0 n = b := by
  have hm : b.extract 0 (max n b.size) = b := ByteArray.extract_zero_max_size
  rwa [Nat.max_eq_left h] at hm

theorem write_unlimited {k : Sink} (h : k.room? = none) (s : String) :
    k.write s = (true, ⟨k.bytes ++ s.toUTF8, none⟩) := by
  simp only [write, h]

theorem write_limited {k : Sink} {room : Nat} (h : k.room? = some room) (s : String) :
    k.write s = (decide (s.utf8ByteSize ≤ room),
      ⟨k.bytes ++ s.toUTF8.extract 0 room, some (room - s.utf8ByteSize)⟩) := by
  simp only [write, h]
  split
  · rename_i hs
    rw [extract_of_size_le (b := s.toUTF8) hs, decide_eq_true hs]
  · rename_i hs
    rw [decide_eq_false hs, Nat.sub_eq_zero_of_le (by omega)]

/-- The sink with room for `n` bytes that was given what an unlimited one was given. -/
def cut (n : Nat) (k : Sink) : Sink := ⟨k.bytes.extract 0 n, some (n - k.bytes.size)⟩

theorem cut_unlimited (n : Nat) : unlimited.cut n = limited n := by
  simp [cut, unlimited, limited]

theorem write_cut {k : Sink} (h : k.room? = none) (n : Nat) (s : String) :
    ((k.cut n).write s).2 = (k.write s).2.cut n := by
  have hs : s.toUTF8.size = s.utf8ByteSize := rfl
  rw [write_unlimited h, write_limited (k := k.cut n) rfl]
  simp only [cut, ByteArray.extract_append, ByteArray.size_append, hs, Nat.zero_sub, Nat.sub_sub]

theorem write_cut_of_le {k : Sink} {n : Nat} {s : String} (h : k.room? = none)
    (hn : (k.write s).2.bytes.size ≤ n) : (k.cut n).write s = (true, (k.write s).2.cut n) := by
  refine Prod.ext ?_ (write_cut h n s)
  have hs : s.toUTF8.size = s.utf8ByteSize := rfl
  rw [write_unlimited h, ByteArray.size_append] at hn
  rw [write_limited (k := k.cut n) rfl]
  exact decide_eq_true (by omega)

/-- A property that writing keeps, whether the text fits or not. -/
def Kept (P : Sink → Prop) : Prop := ∀ k s, P k → P (k.write s).2

/-- There is no room for anything: nothing changes any more. -/
theorem kept_full {l : Sink} (h : l.room? = some 0) : Kept (· = l) := by
  intro k s hk
  subst hk
  rcases k with ⟨bytes, room?⟩
  cases h
  rw [write_limited rfl]
  simp

theorem kept_over (n : Nat) (b : ByteArray) :
    Kept fun k => k.room? = none ∧ n < k.bytes.size ∧ k.bytes.extract 0 n = b := by
  rintro k s ⟨hr, hn, hb⟩
  rw [write_unlimited hr]
  refine ⟨rfl, ?_, ?_⟩
  · rw [ByteArray.size_append]
    omega
  · rw [ByteArray.extract_append, hb, Nat.sub_eq_zero_of_le (Nat.le_of_lt hn)]
    simp

end Sink

namespace TextWriter

theorem sink_emit (w : TextWriter) (e : Event) :
    (w.emit e).2.sink = (w.sink.write ((w.layout.place e).1 ++ e.markup)).2 := by
  simp only [emit]
  split <;> rfl

/-! ### Writers side by side -/

def cut (n : Nat) (u : TextWriter) : TextWriter := { u with sink := u.sink.cut n }

/-- The writer `w` over a sink with room for `n` bytes, beside `u` over an unlimited one: the same, unless
something did not fit. -/
structure Cut (n : Nat) (u w : TextWriter) : Prop where
  unlimited : u.sink.room? = none
  sink : w.sink = u.sink.cut n
  same : u.sink.bytes.size ≤ n → w = u.cut n

/-- Answers beside answers: the same, unless something did not fit. -/
structure CutTo {α : Type} (n : Nat) (s t : α × TextWriter) : Prop where
  cut : Cut n s.2 t.2
  same : s.2.sink.bytes.size ≤ n → t.1 = s.1

variable {α β γ : Type} {n : Nat} {u w : TextWriter}

theorem cut_self (n : Nat) (h : u.sink.room? = none) : Cut n u (u.cut n) := ⟨h, rfl, fun _ => rfl⟩

theorem cut_new (n : Nat) (layout : Layout) : Cut n (new .unlimited layout) (new (.limited n) layout) := by
  rw [new, ← Sink.cut_unlimited n]
  exact cut_self n rfl

/-- What a function does depends on the sink only through what fits. -/
structure Uniform (f : TextWriter → α × TextWriter) : Prop where
  kept {P : Sink → Prop} (hP : Sink.Kept P) (w : TextWriter) : P w.sink → P (f w).2.sink
  cut (n : Nat) (u : TextWriter) : u.sink.room? = none → CutTo n (f u) (f (u.cut n))

/-- Once something did not fit, the writers may go different ways. -/
theorem Cut.over (h : Cut n u w) (hn : n < u.sink.bytes.size) {f g : TextWriter → α × TextWriter}
    (hf : Uniform f) (hg : Uniform g) : CutTo n (f u) (g w) := by
  have hz : w.sink.room? = some 0 := by
    rw [h.sink, Sink.cut, Nat.sub_eq_zero_of_le (Nat.le_of_lt hn)]
  obtain ⟨hr, hl, hb⟩ := hf.kept (Sink.kept_over n (u.sink.bytes.extract 0 n)) u ⟨h.unlimited, hn, rfl⟩
  have hw : (g w).2.sink = w.sink := hg.kept (Sink.kept_full hz) w rfl
  have hc : (f u).2.sink.cut n = u.sink.cut n := by
    rw [Sink.cut, hb, Nat.sub_eq_zero_of_le (Nat.le_of_lt hl), Sink.cut,
      Nat.sub_eq_zero_of_le (Nat.le_of_lt hn)]
  have hno (hle : (f u).2.sink.bytes.size ≤ n) : False := by omega
  exact ⟨⟨hr, by rw [hw, h.sink, hc], fun hle => (hno hle).elim⟩, fun hle => (hno hle).elim⟩

theorem Uniform.cutTo {f : TextWriter → α × TextWriter} (hf : Uniform f) (h : Cut n u w) :
    CutTo n (f u) (f w) := by
  by_cases hn : n < u.sink.bytes.size
  · exact h.over hn hf hf
  · rw [h.same (Nat.le_of_not_lt hn)]
    exact hf.cut n u h.unlimited

/-! ### Functions on writers -/

theorem uniform_answer (a : α) {g : TextWriter → TextWriter} (hs : ∀ w, (g w).sink = w.sink)
    (hc : ∀ n w, g (w.cut n) = (g w).cut n) : Uniform fun w => (a, g w) where
  kept _ w hw := by
    rw [hs]
    exact hw
  cut n u hu := by
    rw [hc]
    exact ⟨cut_self n ((hs u).symm ▸ hu), fun _ => rfl⟩

theorem uniform_bind {f : TextWriter → α × TextWriter} {g : α → TextWriter → β × TextWriter}
    (hf : Uniform f) (hg : ∀ a, Uniform (g a)) : Uniform fun w => g (f w).1 (f w).2 where
  kept hP w hw := (hg _).kept hP _ (hf.kept hP w hw)
  cut n u hu := by
    obtain ⟨hc, ha⟩ := hf.cut n u hu
    by_cases hn : n < (f u).2.sink.bytes.size
    · exact hc.over hn (hg _) (hg _)
    · rw [ha (Nat.le_of_not_lt hn)]
      exact (hg _).cutTo hc

/-- A function may look at everything but the sink. -/
theorem uniform_look (look : TextWriter → γ) {f : γ → TextWriter → α × TextWriter}
    (hl : ∀ n w, look (w.cut n) = look w) (hf : ∀ c, Uniform (f c)) : Uniform fun w => f (look w) w where
  kept hP w hw := (hf _).kept hP w hw
  cut n u hu := by
    rw [hl]
    exact (hf _).cut n u hu

theorem uniform_andThen {f g : TextWriter → Step} (hf : Uniform f) (hg : Uniform g) :
    Uniform fun w => (f w).andThen g := by
  have hb := uniform_bind (g := fun (a : Except WriteError Unit) w => Step.andThen (a, w) g) hf fun a => by
    cases a with
    | ok _ => exact hg
    | error e => exact uniform_answer _ (fun _ => rfl) fun _ _ => rfl
  exact hb

theorem Uniform.after {f : TextWriter → α × TextWriter} (hf : Uniform f) {g : TextWriter → TextWriter}
    (hs : ∀ w, (g w).sink = w.sink) (hc : ∀ n w, g (w.cut n) = (g w).cut n) : Uniform fun w => f (g w) :=
  uniform_bind (uniform_answer () hs hc) fun _ => hf

/-! ### Steps -/

/-- A step whose answer says so if something did not fit. -/
structure Honest (f : TextWriter → Step) : Prop extends Uniform f where
  tells (n : Nat) (u : TextWriter) : u.sink.room? = none → u.sink.bytes.size ≤ n →
    n < (f u).2.sink.bytes.size → (f (u.cut n)).1 = .error (.output Sink.full)

theorem honest_answer (a : Except WriteError Unit) {g : TextWriter → TextWriter}
    (hs : ∀ w, (g w).sink = w.sink) (hc : ∀ n w, g (w.cut n) = (g w).cut n) : Honest fun w => (a, g w) where
  toUniform := uniform_answer a hs hc
  tells n u _ hn ho := by
    have hg : (g u).sink.bytes.size = u.sink.bytes.size := by rw [hs]
    exact absurd hn (Nat.not_le.2 (hg ▸ ho))

theorem honest_look (look : TextWriter → γ) {f : γ → TextWriter → Step}
    (hl : ∀ n w, look (w.cut n) = look w) (hf : ∀ c, Honest (f c)) : Honest fun w => f (look w) w where
  toUniform := uniform_look look hl fun c => (hf c).toUniform
  tells n u hu hn ho := by
    rw [hl]
    exact (hf _).tells n u hu hn ho

theorem Honest.after {f : TextWriter → Step} (hf : Honest f) {g : TextWriter → TextWriter}
    (hs : ∀ w, (g w).sink = w.sink) (hc : ∀ n w, g (w.cut n) = (g w).cut n) : Honest fun w => f (g w) where
  toUniform := hf.toUniform.after hs hc
  tells n u hu hn ho := by
    rw [hc]
    refine hf.tells n (g u) ?_ ?_ ho
    · rwa [hs]
    · rwa [hs]

theorem honest_andThen {f g : TextWriter → Step} (hf : Honest f) (hg : Honest g) :
    Honest fun w => (f w).andThen g where
  toUniform := uniform_andThen hf.toUniform hg.toUniform
  tells n u hu hn ho := by
    obtain ⟨hc, ha⟩ := hf.cut n u hu
    by_cases hm : n < (f u).2.sink.bytes.size
    · -- the first step has told already
      have ht := hf.tells n u hu hn hm
      rcases hr : f (u.cut n) with ⟨_ | _, w⟩ <;> rw [hr] at ht <;> cases ht
      rfl
    · have hm := Nat.le_of_not_lt hm
      have hw := hc.same hm
      have ha := ha hm
      rcases hr : f u with ⟨_ | _, v⟩ <;> rcases hs : f (u.cut n) with ⟨_, w⟩ <;> rw [hr, hs] at ha hw <;>
        cases ha <;> cases hw <;> rw [hr] at ho hm hc
      · exact absurd hm (Nat.not_le.2 ho)
      · exact hg.tells n v hc.unlimited hm ho

theorem honest_emit (e : Event) : Honest fun w => w.emit e where
  kept hP w hw := by
    rw [sink_emit]
    exact hP _ _ hw
  cut n u hu := by
    let t := (u.layout.place e).1 ++ e.markup
    have hk : (u.wrote e).sink = (u.sink.write t).2 := by
      rw [Sink.write_unlimited hu]
      rfl
    have hs : ((u.cut n).emit e).2.sink = (u.wrote e).sink.cut n := by
      rw [sink_emit, hk]
      exact Sink.write_cut hu n t
    have hf (hle : (u.wrote e).sink.bytes.size ≤ n) :
        (u.cut n).emit e = (.ok (), (u.wrote e).cut n) := by
      rw [hk] at hle
      simp only [emit, cut, hk, t, Sink.write_cut_of_le hu hle, if_true]
      rfl
    rw [emit_eq hu e]
    exact ⟨⟨rfl, hs, fun hle => by rw [hf hle]⟩, fun hle => by rw [hf hle]⟩
  tells n u hu hn ho := by
    refine emit_error fun hf => ?_
    have hs := hf _ rfl
    simp only [emit_eq hu, wrote, ByteArray.size_append] at ho
    have hb : (((u.layout.place e).1 ++ e.markup).toUTF8).size =
        ((u.layout.place e).1 ++ e.markup).utf8ByteSize := rfl
    simp only [cut] at hs
    omega

theorem honest_emitAll (es : List Event) : Honest (emitAll es) := by
  induction es with
  | nil => exact honest_answer _ (fun _ => rfl) fun _ _ => rfl
  | cons e r ih => exact honest_andThen (honest_emit e) ih

/-! `flush`, `close` and `attr` look at what is pending and at the open elements; here by what they see. -/

def flushing : Option Tag → TextWriter → Step
  | none, w => (.ok (), w)
  | some tag, w => { w with pending? := none }.emit (.start tag)

def attaching (name value : String) : Option Tag → TextWriter → Step
  | none, w => (.error (.misplacedAttribute name), w)
  | some tag, w => (.ok (), { w with
      pending? := some { tag with attributes := tag.attributes ++ [(name, value)] } })

def closing (pending? : Option Tag) : List String → TextWriter → Step
  | [], w => (.error .noOpenElement, w)
  | name :: names, w => { w with names, pending? := none }.emit (ending pending? name)

theorem honest_flush : Honest flush := by
  have hf : flush = fun w => flushing w.pending? w := by
    funext w
    cases hp : w.pending? with
    | none => rw [flush, hp, flushing]
    | some tag => rw [flush, hp, flushing]
  rw [hf]
  refine honest_look pending? (fun _ _ => rfl) fun pending? => ?_
  cases pending? with
  | none => exact honest_answer _ (fun _ => rfl) fun _ _ => rfl
  | some tag => exact (honest_emit (.start tag)).after (fun _ => rfl) fun _ _ => rfl

theorem honest_attr (name value : String) : Honest (performOpen (.attr name value)) := by
  have hf : performOpen (.attr name value) = fun w => attaching name value w.pending? w := by
    funext w
    cases hp : w.pending? with
    | none => rw [performOpen, hp, attaching]
    | some tag => rw [performOpen, hp, attaching]
  rw [hf]
  refine honest_look pending? (fun _ _ => rfl) fun pending? => ?_
  cases pending? <;> exact honest_answer _ (fun _ => rfl) fun _ _ => rfl

theorem honest_close : Honest close := by
  have hf : close = fun w => closing w.pending? w.names w := by
    funext w
    cases hn : w.names with
    | nil => rw [close, hn, closing]
    | cons name names => rw [close_eq_emit hn, closing]
  rw [hf]
  refine honest_look (fun w => (w.pending?, w.names)) (f := fun l => closing l.1 l.2) (fun _ _ => rfl) fun l => ?_
  rcases l with ⟨pending?, _ | ⟨name, names⟩⟩
  · exact honest_answer _ (fun _ => rfl) fun _ _ => rfl
  · exact (honest_emit (ending pending? name)).after (fun _ => rfl) fun _ _ => rfl

theorem honest_performOpen (c : Call) : Honest (performOpen c) := by
  cases c with
  | element name => exact honest_andThen honest_flush (honest_answer _ (fun _ => rfl) fun _ _ => rfl)
  | attr name value => exact honest_attr name value
  | text t => exact honest_andThen honest_flush (honest_emit _)
  | raw t => exact honest_andThen honest_flush (honest_emitAll _)
  | comment t => exact honest_andThen honest_flush (honest_emit _)
  | close => exact honest_close

theorem honest_unlessFinished (a : Except WriteError Unit) {f : TextWriter → Step} (hf : Honest f) :
    Honest fun w => if w.isFinished then (a, w) else f w := by
  refine honest_look isFinished (f := fun isFinished w => if isFinished then (a, w) else f w)
    (fun _ _ => rfl) fun isFinished => ?_
  cases isFinished with
  | true => exact honest_answer a (fun _ => rfl) fun _ _ => rfl
  | false => exact hf

theorem honest_perform (c : Call) : Honest (Writer.perform c) :=
  honest_unlessFinished _ (honest_performOpen c)

theorem honest_closeMany (n : Nat) : Honest (closeMany n) := by
  induction n with
  | zero => exact honest_answer _ (fun _ => rfl) fun _ _ => rfl
  | succ n ih => exact honest_andThen honest_close ih

theorem honest_finish : Honest finish := by
  have hc : Honest fun w : TextWriter => closeMany w.names.length w :=
    honest_look (fun w => w.names.length) (fun _ _ => rfl) honest_closeMany
  exact honest_unlessFinished _ (honest_andThen hc (honest_answer _ (fun _ => rfl) fun _ _ => rfl))

/-! ### Runs -/

theorem uniform_run (m : Writing α) : Uniform m.run := by
  induction m with
  | done a => exact uniform_answer a (fun _ => rfl) fun _ _ => rfl
  | perform c next ih => exact uniform_bind (honest_perform c).toUniform ih
  | askDepth next ih => exact uniform_look Writer.depth (fun _ _ => rfl) ih

theorem honest_calls (cs : List Call) : Honest (Writing.calls cs).run := by
  induction cs with
  | nil => exact honest_answer _ (fun _ => rfl) fun _ _ => rfl
  | cons c r ih =>
    have hc : (Writing.calls (c :: r)).run = fun w : TextWriter =>
        Step.andThen (Writer.perform c w) (Writing.calls r).run := by
      funext w
      rw [Writing.calls, Writing.run]
      rcases Writer.perform c w with ⟨_ | _, w⟩ <;> rfl
    rw [hc]
    exact honest_andThen (honest_perform c) ih

theorem honest_closeTo (depth : Nat) : Honest (Writing.closeTo depth).run :=
  honest_look Writer.depth (f := fun now => (Writing.calls (List.replicate (now - depth) .close)).run)
    (fun _ _ => rfl) fun _ => honest_calls _

/-- If something does not fit during a run, a call is refused for that reason. -/
theorem exists_refused (m : Writing α) {n : Nat} {u : TextWriter} (hu : u.sink.room? = none)
    (hn : u.sink.bytes.size ≤ n) (ho : n < (m.run u).2.sink.bytes.size) :
    ∃ s ∈ m.steps (u.cut n), (Writer.perform s.2 s.1).1 = .error (.output Sink.full) := by
  induction m generalizing u with
  | done a => exact absurd hn (Nat.not_le.2 ho)
  | perform c next ih =>
    obtain ⟨hc, ha⟩ := (honest_perform c).cut n u hu
    by_cases hm : n < (Writer.perform c u).2.sink.bytes.size
    · exact ⟨_, List.mem_cons_self .., (honest_perform c).tells n u hu hn hm⟩
    · have hm := Nat.le_of_not_lt hm
      obtain ⟨s, hs, hr⟩ := ih _ hc.unlimited hm ho
      refine ⟨s, List.mem_cons_of_mem _ ?_, hr⟩
      rwa [ha hm, hc.same hm]
  | askDepth next ih => exact ih _ hu hn ho

theorem Uniform.grows {f : TextWriter → α × TextWriter} (hf : Uniform f) (w : TextWriter) :
    w.sink.bytes.size ≤ (f w).2.sink.bytes.size := by
  have hk : Sink.Kept fun k => w.sink.bytes.size ≤ k.bytes.size := by
    intro k s hk
    rcases hr : k.room? with _ | room
    · rw [Sink.write_unlimited hr, ByteArray.size_append]
      exact Nat.le_add_right_of_le hk
    · rw [Sink.write_limited hr, ByteArray.size_append]
      exact Nat.le_add_right_of_le hk
  exact hf.kept hk w (Nat.le_refl _)

theorem close_refused_of_full {w : TextWriter} (hz : w.sink.room? = some 0) : w.close.1 ≠ .ok () := by
  cases hw : w.names with
  | nil => simp [close, hw]
  | cons name names =>
    have hp := ending_markup_pos w.pending? name
    rw [close_eq_emit hw, emit_error fun hf => ?_]
    · simp
    · have hs := hf 0 hz
      rw [String.utf8ByteSize_append] at hs
      omega

/-- The end of an element is never empty, so it does not fit once something else did not. -/
theorem close_of_over {n : Nat} {u w : TextWriter} (h : Cut n u w) (hn : n < u.sink.bytes.size) :
    (Writer.perform .close w).1 ≠ .ok () := by
  have hz : w.sink.room? = some 0 := by
    rw [h.sink, Sink.cut, Nat.sub_eq_zero_of_le (Nat.le_of_lt hn)]
  show (perform .close w).1 ≠ .ok ()
  by_cases hd : w.isFinished
  · simp [perform, hd]
  · rw [perform, if_neg hd]
    exact close_refused_of_full hz

/-! ### Outputs -/

/-- A run and the finish after it. -/
def output (m : Writing α) (w : TextWriter) : (α × Except WriteError Unit) × TextWriter :=
  let (a, w) := m.run w
  let (finished, w) := w.finish
  ((a, finished), w)

theorem uniform_output (m : Writing α) : Uniform (output m) :=
  uniform_bind (uniform_run m) fun _ => uniform_bind honest_finish.toUniform fun _ =>
    uniform_answer _ (fun _ => rfl) fun _ _ => rfl

theorem Cut.bytes (h : Cut n u w) : w.sink.bytes = u.sink.bytes.extract 0 (min n u.sink.bytes.size) := by
  rw [h.sink, Sink.cut]
  rcases Nat.le_total n u.sink.bytes.size with hn | hn
  · rw [Nat.min_eq_left hn]
  · rw [Nat.min_eq_right hn, Sink.extract_of_size_le hn, ByteArray.extract_zero_size]

end TextWriter

end XamlDoc.Markup.Xml
