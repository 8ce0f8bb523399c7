import XamlDoc.Proofs.Markup.Failing
import XamlDoc.Proofs.Render.Closed

/-!
# Unwinding when the output fails

A rendering that ends with an error closes what it left open, but gives up at the first close that fails. A
close that fails has still ended its element, so what is left open after that depends on how many ends the
sink has room for: all but the last must fit.
-/

namespace XamlDoc

open Markup
open Markup.Xml (TextWriter)
open Markup.Xml.TextWriter

/-! ### Elements of others -/

/-- No close of a handler ends an element that was open when the handler was offered its node. -/
def Extensions.ClosesOwn (x : Extensions) (σ : Type) [Writer σ] : Prop :=
  ∀ handler, x.Offers handler → ∀ (context : HandlerContext) (w : σ),
    ∀ s ∈ (handler context).steps w, s.2 = .close →
      Writer.depth (Writer.perform s.2 s.1).2 < Writer.depth s.1 → Writer.depth w < Writer.depth s.1

/-- Whatever fails, what was open before is open afterwards. -/
def Spares (α : Type) (m : Rendering α) : Prop :=
  ∀ (p : Progress) (w : TextWriter), Writer.depth w ≤ Writer.depth (Writing.run (m p) w).2

theorem le_depth_of_steps {α : Type} {m : Writing α} {n : Nat} {w : TextWriter} (hn : n ≤ Writer.depth w)
    (h : ∀ s ∈ m.steps w, s.2 = .close →
      Writer.depth (Writer.perform s.2 s.1).2 < Writer.depth s.1 → n < Writer.depth s.1) :
    n ≤ Writer.depth (m.run w).2 := by
  induction m generalizing w with
  | done a => exact hn
  | perform c next ih =>
    suffices hc : n ≤ Writer.depth (Writer.perform c w).2 from
      ih _ hc fun s hs => h s (List.mem_cons_of_mem _ hs)
    rcases frame_perform c w with ⟨hf, -⟩ | ⟨name, -, hf⟩ | ⟨rfl, hw, hf⟩
    · exact depth_of_frame hf ▸ hn
    · exact depth_of_frame hf ▸ Nat.le_succ_of_le hn
    · have hd : Writer.depth (Writer.perform .close w).2 = Writer.depth w - 1 :=
        (depth_of_frame hf).trans List.length_tail
      have hp : 0 < Writer.depth w := List.length_pos_iff.2 hw
      have hl : Writer.depth (Writer.perform .close w).2 < Writer.depth w → n < Writer.depth w :=
        h (w, .close) (List.mem_cons_self ..) rfl
      rw [hd] at hl ⊢
      have hn := hl (by omega)
      omega
  | askDepth next ih => exact ih _ hn h

namespace Spares

variable {α β : Type}

theorem bind {m : Rendering α} {f : α → Rendering β} (hm : Spares α m) (hf : ∀ a, Spares β (f a)) :
    Spares β (m >>= f) := by
  intro p w
  rw [Rendering.bind_apply, Writing.run_bind]
  refine Nat.le_trans (hm p w) ?_
  cases (Writing.run (m p) w).1 with
  | ok r => exact hf r.1 r.2 _
  | error e => exact Nat.le_refl _

theorem quiet {m : Rendering α} (h : ∀ p, ∃ r, m p = .done r) : Spares α m := by
  intro p w
  obtain ⟨r, hr⟩ := h p
  rw [hr]
  exact Nat.le_refl _

theorem depth_emit {n : Nat} {cs : List Call} (hc : Opening n cs) (p : Progress) (w : TextWriter) :
    Writer.depth w ≤ Writer.depth (Writing.run (Rendering.emit cs p) w).2 ∧
      ∀ r, (Writing.run (Rendering.emit cs p) w).1 = .ok r →
        Writer.depth (Writing.run (Rendering.emit cs p) w).2 = Writer.depth w + n := by
  obtain ⟨accepts, ha⟩ := hc.accept? ⟨0, false⟩
  obtain ⟨hle, heq⟩ := depth_calls ha (w := w) (n := Writer.depth w) rfl
  rw [Rendering.emit, Rendering.ofWriting, Writing.run_bind]
  cases hr : ((Writing.calls cs).run w).1 with
  | error e => exact ⟨hle, fun r hk => by cases hk⟩
  | ok a =>
    have hd := heq hr
    rw [Nat.zero_add] at hd
    exact ⟨hle, fun _ _ => hd⟩

theorem emit {n : Nat} {cs : List Call} (hc : Opening n cs) : Spares Unit (Rendering.emit cs) :=
  fun p w => (depth_emit hc p w).1

theorem enclosed {n : Nat} {start : List Call} {content : Rendering Unit}
    {finish : Writing (Except WriteError Unit)} (hs : Opening n start) (hc : Spares Unit content)
    (p : Progress) (w : TextWriter)
    (hf : ∀ w' : TextWriter, Writer.depth w + n ≤ Writer.depth w' →
      Writer.depth w ≤ Writer.depth (finish.run w').2) :
    Writer.depth w ≤ Writer.depth (Writing.run ((do
      Rendering.emit start
      content
      Rendering.ofWriting finish : Rendering Unit) p) w).2 := by
  obtain ⟨hle, heq⟩ := depth_emit hs p w
  rw [Rendering.bind_apply, Writing.run_bind]
  cases hr : (Writing.run (Rendering.emit start p) w).1 with
  | error e => exact hle
  | ok r =>
    have hd := hc r.2 (Writing.run (Rendering.emit start p) w).2
    rw [heq r hr] at hd
    show Writer.depth w ≤ Writer.depth
      (Writing.run ((content >>= fun _ => Rendering.ofWriting finish) r.2) _).2
    rw [Rendering.bind_apply, Writing.run_bind]
    cases (Writing.run (content r.2) (Writing.run (Rendering.emit start p) w).2).1 with
    | error e => exact Nat.le_trans (Nat.le_add_right _ _) hd
    | ok q =>
      show Writer.depth w ≤ Writer.depth (Writing.run (Rendering.ofWriting finish q.2) _).2
      rw [Rendering.ofWriting, Writing.run_bind]
      have hq := hf _ hd
      split <;> exact hq

theorem le_depth_close {n : Nat} {w : TextWriter} (h : n + 1 ≤ Writer.depth w) :
    n ≤ Writer.depth ((Writing.calls [.close]).run w).2 := by
  have hc : (⟨1, false⟩ : Gauge).accept? [.close] = some ⟨0, false⟩ := rfl
  have hd : Writer.depth w = (Writer.depth w - 1) + 1 := by omega
  have hle := (depth_calls hc hd).1
  omega

theorem offered {x : Extensions} (hx : x.ClosesOwn TextWriter) {handler : HandlerContext → Writing Handled}
    {s : Scope} {alignment : Alignment} {fallback : List String → Rendering Unit} (ho : x.Offers handler)
    (hf : ∀ messages, Spares Unit (fallback messages)) :
    Spares Unit (Render.offered handler s alignment fallback) := by
  intro p w
  rw [Render.offered_apply, Writing.run, Writing.run_bind]
  have hh : Writer.depth w ≤ Writer.depth ((handler ⟨alignment, s.dialect⟩).run w).2 :=
    le_depth_of_steps (Nat.le_refl _) (hx handler ho _ w)
  generalize (handler ⟨alignment, s.dialect⟩).run w = r at hh
  rcases r with ⟨⟨result, cancels⟩, w'⟩
  have hc := le_depth_closeTo hh
  have declines (messages : List String) (q : Progress) : Writer.depth w ≤ Writer.depth
      (Writing.run ((Writing.closeTo (Writer.depth w)).bind fun _ => fallback messages q) w').2 := by
    rw [Writing.run_bind]
    exact Nat.le_trans hc (hf messages q _)
  rcases result with e | outcome
  · cases e with
    | write e => exact hh
    | failed message => exact declines _ _
    | aggregate messages => exact declines _ _
  · cases outcome with
    | rendered =>
      simp only [Writing.run_bind, Rendering.ofWriting]
      split <;> exact hc
    | declined => exact declines _ _

theorem closed {setting : Setting} (hx : setting.extensions.ClosesOwn TextWriter) :
    Closed setting Spares fun _ _ => True where
  toCompositional := Bracketed.compositional {
    done a := quiet fun p => ⟨_, rfl⟩
    andThen := bind
    append r a := quiet fun p => ⟨_, rfl⟩
    comment t := quiet fun p => ⟨_, rfl⟩
    flush p := emit (Opening.ofWhole (p.runs.calls_whole _)) { p with runs := ∅ }
    whole hc _ := emit (Opening.ofWhole hc)
    element ht _ hc p w := enclosed (Opening.ofTag ht) hc p w fun _ => le_depth_close
    enclosed hs _ hc p w := enclosed hs hc p w fun _ hd =>
      le_depth_closeTo (Nat.le_trans (Nat.le_add_right _ _) hd) }
  passes := Html.closed_true
  visit hm p w := by
    rw [Render.visit_apply]
    split
    · exact Nat.le_refl _
    · exact hm _ w
  cancelIf _ _ := quiet fun p => ⟨_, rfl⟩
  tooDeep := quiet fun p => ⟨_, rfl⟩
  ofPass _ := quiet (Rendering.ofPass_eq_done _)
  askNumbering hf p w := hf _ p w
  setNumbering n := quiet fun p => ⟨_, rfl⟩
  offered ho hf := offered hx ho hf

end Spares

/-! ### Depth after an error -/

/-- Where a rendering stops, before it closes what it left open. -/
def stopOf (setting : Setting) (limit : Nat) (d : Document) (inclusion : Bool) (fuse? : Option Nat)
    (w : TextWriter) : TextWriter :=
  (Writing.run (Render.document setting limit d inclusion ⟨.start fuse?, ∅⟩) w).2

/-- After an error, what was left open is closed from the place where the rendering stopped. -/
theorem run_of_error {setting : Setting} {limit : Nat} {d : Document} {inclusion : Bool} {fuse? : Option Nat}
    {w : TextWriter} {e : RenderError}
    (he : ((renderUntil setting limit d inclusion fuse?).run w).1 = .error e) :
    ((renderUntil setting limit d inclusion fuse?).run w).2 =
      ((Writing.closeTo (Writer.depth w)).run (stopOf setting limit d inclusion fuse? w)).2 := by
  rw [renderUntil, run_renderFrom] at he ⊢
  cases hm : (Writing.run (Render.document setting limit d inclusion ⟨.start fuse?, ∅⟩) w).1 with
  | ok r =>
    rw [hm] at he
    cases he
  | error e' =>
    rw [run_unwound_error]
    rfl

/-- After an error all that was open before is still open, and nothing else just if, at the place where the
rendering stopped, the sink has room for the ends of all elements left open but the last one. If the sink is
full there, no more than one element may be left open. -/
theorem renderUntil_restores_depth_iff {setting : Setting} (hx : setting.extensions.ClosesOwn TextWriter)
    (limit : Nat) (d : Document) (inclusion : Bool) (fuse? : Option Nat) (w : TextWriter) {e : RenderError}
    (he : ((renderUntil setting limit d inclusion fuse?).run w).1 = .error e) :
    let stop := stopOf setting limit d inclusion fuse? w
    let left := Writer.depth stop - Writer.depth w
    let final := ((renderUntil setting limit d inclusion fuse?).run w).2
    Writer.depth w ≤ Writer.depth stop ∧ Writer.depth w ≤ Writer.depth final ∧
      (Writer.depth final = Writer.depth w ↔ stop.sink.Fits (stop.endText (left - 1))) ∧
      (stop.sink.room? = some 0 → (Writer.depth final = Writer.depth w ↔ left ≤ 1)) := by
  intro stop left final
  have hle : Writer.depth w ≤ Writer.depth stop := (Spares.closed hx).document limit d inclusion _ w
  have hf : final = ((Writing.calls (List.replicate left .close)).run stop).2 := run_of_error he
  have hd : Writer.depth stop - left = Writer.depth w := Nat.sub_sub_self hle
  have hiff : Writer.depth final = Writer.depth w ↔ stop.sink.Fits (stop.endText (left - 1)) := by
    cases hs : stop.isFinished with
    | false =>
      rw [hf, ← hd]
      exact depth_closes hs (Nat.sub_le _ _)
    | true =>
      -- a finished writer stays as it is, so that nothing is left open
      let m : Writing (Except RenderError (Unit × Progress)) :=
        Render.document setting limit d inclusion ⟨.start fuse?, ∅⟩
      have hw : w.isFinished = true := (isFinished_run m w).symm.trans hs
      have hz : stop = w := run_finished m hw
      have hl : left = 0 := by
        show Writer.depth stop - Writer.depth w = 0
        rw [hz, Nat.sub_self]
      have hfw : final = w := run_finished _ hw
      rw [hl, hfw]
      exact ⟨fun _ => Xml.Sink.fits_empty _, fun _ => rfl⟩
  refine ⟨hle, ?_, hiff, fun hz => ?_⟩
  · rw [hf]
    exact le_depth_closeTo hle
  · rw [hiff, fits_endText_of_full hz (Nat.le_trans (Nat.sub_le _ _) (Nat.sub_le _ _))]
    omega

/-! ### A paragraph that does not fit -/

def bareSetting : Setting := ⟨.ofKind .maui, .none⟩

def shortParagraph : Document := .ofNodes [.paragraph [.text "a"]]

/-- A writer with room for the start tag around a paragraph, but not for the label in it. -/
def narrowWriter : TextWriter := .new (.limited 70) .compact

theorem closesOwn_none (σ : Type) [Writer σ] : Extensions.none.ClosesOwn σ := by
  intro handler ho
  cases ho with
  | code b hm => cases hm
  | media item hm => cases hm

/-- There is no handler, the start tag of the label fails, and so does the end of the label: the element
around it is left open. -/
theorem renderUntil_leaves_element_open : Extensions.none.ClosesOwn TextWriter ∧
    let m := renderUntil bareSetting 4 shortParagraph true none
    (m.run narrowWriter).1 = .error (.write (.output Xml.Sink.full)) ∧
      Writer.depth narrowWriter = 0 ∧ Writer.depth (m.run narrowWriter).2 = 1 :=
  ⟨closesOwn_none _, rfl, by decide +kernel, by decide +kernel⟩

theorem renderUntil_restores_depth_iff_narrow :
    ((renderUntil bareSetting 4 shortParagraph true none).run narrowWriter).1 =
        .error (.write (.output Xml.Sink.full)) ∧
      let stop := stopOf bareSetting 4 shortParagraph true none narrowWriter
      let left := Writer.depth stop - Writer.depth narrowWriter
      stop.sink.room? = some 0 ∧ left = 2 ∧
        (Writer.depth ((renderUntil bareSetting 4 shortParagraph true none).run narrowWriter).2 =
          Writer.depth narrowWriter ↔ left ≤ 1) := by
  have he : ((renderUntil bareSetting 4 shortParagraph true none).run narrowWriter).1 =
      .error (.write (.output Xml.Sink.full)) := rfl
  have hz : (stopOf bareSetting 4 shortParagraph true none narrowWriter).sink.room? = some 0 := by
    decide +kernel
  exact ⟨he, hz, by decide +kernel,
    (renderUntil_restores_depth_iff (closesOwn_none _) 4 shortParagraph true none narrowWriter he).2.2.2 hz⟩

end XamlDoc
