import XamlDoc.Proofs.Render.Closed

/-!
# Accounts of rendering

An account says what the steps of a rendering may be and how many elements they leave open. If an
account admits the calls that open elements, allows to close what is open, and admits what handlers do,
then it holds of the rendering of every document: nothing is left open at the end, and after an
error nothing is closed that was open before.
-/

namespace XamlDoc

open Markup Gauged

variable {x : Extensions} {σ : Type} [Writer σ] [Gauged σ]

/-- What is said of the steps from one state of a working writer to another, given what the handlers
among them came to and the number of elements left open. -/
structure Account (x : Extensions) (σ : Type) [Writer σ] [Gauged σ] where
  Leaves : Nat → σ → List (Step σ) → List Handled → σ → Prop
  depth {n : Nat} {w w' : σ} {a : List (Step σ)} {hs : List Handled} :
    Leaves n w a hs w' → Writer.depth w' = Writer.depth w + n
  nil (w : σ) : Leaves 0 w [] [] w
  append {m n : Nat} {w w' w'' : σ} {a b : List (Step σ)} {hs ks : List Handled} :
    Leaves m w a hs w' → Leaves n w' b ks w'' → Leaves (m + n) w (a ++ b) (hs ++ ks) w''
  opening {n : Nat} {cs : List Call} {w : σ} : Opening n cs → Works w →
    Leaves n w ((Writing.calls cs).steps w) [] ((Writing.calls cs).run w).2
  close {n : Nat} {w w' : σ} {a : List (Step σ)} {hs : List Handled} :
    Leaves n w a hs w' → Works w' →
      Leaves 0 w (a ++ (Writing.calls (List.replicate n .close)).steps w') hs
        ((Writing.calls (List.replicate n .close)).run w').2
  handler {handler : HandlerContext → Writing Handled} {w : σ} (context : HandlerContext) :
    x.Offers handler → Works w →
      ∃ n, Leaves n w ((handler context).steps w) [((handler context).run w).1]
        ((handler context).run w).2

/-- What may end a rendering, given what the handlers came to. -/
def RenderError.Excused (hs : List Handled) : RenderError → Prop
  | .cancelled | .tooDeep => True
  | .write e => ∃ handled ∈ hs, handled.result = .error (.write e)

theorem RenderError.Excused.append {e : RenderError} {ks : List Handled} (h : e.Excused ks)
    (hs : List Handled) : e.Excused (hs ++ ks) := by
  cases e with
  | cancelled => trivial
  | tooDeep => trivial
  | write e =>
    obtain ⟨handled, hm, he⟩ := h
    exact ⟨handled, List.mem_append_right hs hm, he⟩

theorem Halt.excused (halt : Halt) (hs : List Handled) : halt.error.Excused hs := by
  cases halt <;> trivial

namespace Account

variable {α β : Type} (A : Account x σ)

/-- The account holds of a run that leaves `n` elements open, or ends with an error. -/
structure Holds (n : Nat) (w : σ) (m : Writing (Except RenderError α)) : Prop where
  ok {a : α} : (m.run w).1 = .ok a → ∃ hs, A.Leaves n w (m.steps w) hs (m.run w).2
  error {e : RenderError} : (m.run w).1 = .error e →
    ∃ n hs, A.Leaves n w (m.steps w) hs (m.run w).2 ∧ e.Excused hs

/-- The account holds of a rendering on every working writer. -/
def Kept (α : Type) (m : Rendering α) : Prop := ∀ p, ∀ w : σ, Works w → A.Holds 0 w (m p)

variable {A} {w : σ}

/-! ### Sequences -/

theorem holds_ok (a : α) : A.Holds 0 w (.done (.ok a)) where
  ok _ := ⟨[], A.nil w⟩
  error h := by cases h

theorem holds_halt (halt : Halt) : A.Holds 0 w (.done (.error halt.error) : Writing (Except _ α)) where
  ok h := by cases h
  error h := by
    cases h
    exact ⟨0, [], A.nil w, halt.excused []⟩

theorem holds_after {j n : Nat} {m k : Writing (Except RenderError α)} {a : List (Step σ)}
    {hs : List Handled} {w' : σ} (ha : A.Leaves j w a hs w') (hk : A.Holds n w' k)
    (hr : m.run w = k.run w') (hs' : m.steps w = a ++ k.steps w') : A.Holds (j + n) w m := by
  constructor
  · intro v h
    rw [hr] at h
    obtain ⟨ks, hl⟩ := hk.ok h
    rw [hr, hs']
    exact ⟨hs ++ ks, A.append ha hl⟩
  · intro e h
    rw [hr] at h
    obtain ⟨i, ks, hl, he⟩ := hk.error h
    rw [hr, hs']
    exact ⟨j + i, hs ++ ks, A.append ha hl, he.append hs⟩

theorem holds_bind {j n : Nat} {m : Writing β} {f : β → Writing (Except RenderError α)}
    {hs : List Handled} (hm : A.Leaves j w (m.steps w) hs (m.run w).2)
    (hf : A.Holds n (m.run w).2 (f (m.run w).1)) : A.Holds (j + n) w (m.bind f) :=
  holds_after hm hf (Writing.run_bind m f w) (Writing.steps_bind m f w)

/-- A run may end with an error where something is still open. -/
theorem holds_stop {j n : Nat} {m : Writing β} {f : β → Writing (Except RenderError α)}
    {hs : List Handled} {e : RenderError} (hm : A.Leaves j w (m.steps w) hs (m.run w).2)
    (he : e.Excused hs) (hf : f (m.run w).1 = .done (.error e)) : A.Holds n w (m.bind f) := by
  have hr : (m.bind f).run w = (.error e, (m.run w).2) := by
    rw [Writing.run_bind, hf]
    rfl
  have hs' : (m.bind f).steps w = m.steps w := by
    rw [Writing.steps_bind, hf]
    exact List.append_nil _
  constructor
  · intro a h
    rw [hr] at h
    cases h
  · intro e' h
    rw [hr] at h
    cases h
    rw [hr, hs']
    exact ⟨j, hs, hm, he⟩

/-- A run may go on after closing what is still open. -/
theorem holds_close {n : Nat} {m : Writing β} {f : β → Writing (Except RenderError α)}
    {finish : Writing (Except WriteError Unit)}
    {g : Except WriteError Unit → Writing (Except RenderError α)} {hs : List Handled}
    (hw : Works w) (hm : A.Leaves n w (m.steps w) hs (m.run w).2)
    (hc : Closes σ (Writer.depth w) n finish) (hf : f (m.run w).1 = finish.bind g)
    (hg : ∀ w' : σ, Works w' → A.Holds 0 w' (g (.ok ()))) : A.Holds 0 w (m.bind f) := by
  have hw' : Works (m.run w).2 := works_run m hw
  have hd : Writer.depth (m.run w).2 = Writer.depth w + n := A.depth hm
  obtain ⟨hr, hs'⟩ := hc _ hd
  have ha : ((Writing.calls (List.replicate n .close)).run (m.run w).2).1 = .ok () :=
    (accepted_closes hw' hd).answer
  refine holds_after (A.close hm hw') (hg _ (works_run _ hw')) ?_ ?_
  · rw [Writing.run_bind, hf, Writing.run_bind, hr, ha]
  · rw [Writing.steps_bind, hf, Writing.steps_bind, hs', hr, ha, List.append_assoc]

/-! ### Renderings -/

theorem kept_pure (a : α) : A.Kept α (pure a) := fun p _ _ => holds_ok (a, p)

theorem holds_seq {j : Nat} {m : Rendering α} {f : α → Rendering β} {p : Progress} (hw : Works w)
    (hm : A.Holds j w (m p)) (hf : ∀ a, A.Kept β (f a)) : A.Holds j w ((m >>= f) p) := by
  rw [Rendering.bind_apply]
  cases hr : (Writing.run (m p) w).1 with
  | ok r =>
    obtain ⟨hs, hl⟩ := hm.ok hr
    refine holds_bind (n := 0) hl ?_
    rw [hr]
    exact hf r.1 r.2 _ (works_run _ hw)
  | error e =>
    obtain ⟨i, hs, hl, he⟩ := hm.error hr
    refine holds_stop hl he ?_
    rw [hr]

theorem kept_bind {m : Rendering α} {f : α → Rendering β} (hm : A.Kept α m)
    (hf : ∀ a, A.Kept β (f a)) : A.Kept β (m >>= f) := fun p w hw => holds_seq hw (hm p w hw) hf

theorem kept_visit {m : Rendering Unit} (hm : A.Kept Unit m) : A.Kept Unit (Rendering.visit m) := by
  intro p w hw
  rw [Render.visit_apply]
  split
  · exact holds_halt .cancelled
  · exact hm _ w hw

theorem kept_ofPass (m : Html.Pass α) : A.Kept α (Rendering.ofPass m) := by
  intro p w _
  rw [Rendering.ofPass]
  split
  · exact holds_ok _
  · exact holds_halt _

theorem holds_emit {n : Nat} {cs : List Call} (hc : Opening n cs) (p : Progress) (hw : Works w) :
    A.Holds n w (Rendering.emit cs p) := by
  refine holds_bind (n := 0) (A.opening hc hw) ?_
  rw [(hc.accepted hw).answer]
  exact holds_ok _

theorem holds_enclosed {n : Nat} {start : List Call} {content : Rendering Unit}
    {finish : Writing (Except WriteError Unit)} (hs : Opening n start) (hc : A.Kept Unit content)
    (p : Progress) (hw : Works w) (hf : Closes σ (Writer.depth w) n finish) :
    A.Holds 0 w ((do
      Rendering.emit start
      content
      Rendering.ofWriting finish : Rendering Unit) p) := by
  have hm : A.Holds n w ((do Rendering.emit start; content : Rendering Unit) p) :=
    holds_seq hw (holds_emit hs p hw) fun _ => hc
  rw [← bind_assoc, Rendering.bind_apply]
  cases hr : (Writing.run ((do Rendering.emit start; content : Rendering Unit) p) w).1 with
  | ok r =>
    obtain ⟨hs, hl⟩ := hm.ok hr
    refine holds_close (g := fun answer => Rendering.ofWriting (.done answer) r.2) hw hl hf ?_
      fun w' _ => holds_ok _
    rw [hr]
    rfl
  | error e =>
    obtain ⟨i, hs, hl, he⟩ := hm.error hr
    refine holds_stop hl he ?_
    rw [hr]

theorem holds_askDepth {n : Nat} {f : Nat → Writing (Except RenderError α)}
    (h : A.Holds n w (f (Writer.depth w))) : A.Holds n w (.askDepth f) := ⟨h.ok, h.error⟩

theorem kept_offered {handler : HandlerContext → Writing Handled} {s : Scope}
    {alignment : Alignment} {fallback : List String → Rendering Unit} (ho : x.Offers handler)
    (hf : ∀ messages, A.Kept Unit (fallback messages)) :
    A.Kept Unit (Render.offered handler s alignment fallback) := by
  intro p w hw
  rw [Render.offered_apply]
  refine holds_askDepth ?_
  obtain ⟨n, hl⟩ := A.handler ⟨alignment, s.dialect⟩ ho hw
  generalize hr : ((handler ⟨alignment, s.dialect⟩).run w).1 = handled at hl
  rcases handled with ⟨result, cancels⟩
  -- every outcome but a failure to write is followed by closing what the handler left open
  have hc : Closes σ (Writer.depth w) n (Writing.closeTo (Writer.depth w)) := closes_closeTo _ n
  let q : Progress := { p with traversal := p.traversal.cancelIf cancels }
  have declines (messages : List String) (w' : σ) (hw' : Works w') :
      A.Holds 0 w' (fallback messages q) := hf messages q w' hw'
  rcases result with e | outcome
  · cases e with
    | write e =>
      have he : (RenderError.write e).Excused [⟨.error (.write e), cancels⟩] :=
        ⟨_, List.mem_singleton_self _, rfl⟩
      exact holds_stop hl he (by rw [hr])
    | failed message =>
      exact holds_close hw hl hc (by rw [hr]) (declines [message])
    | aggregate messages =>
      exact holds_close hw hl hc (by rw [hr]) (declines messages)
  · cases outcome with
    | rendered =>
      exact holds_close (g := fun answer => Rendering.ofWriting (.done answer) q) hw hl hc
        (by rw [hr]) fun w' _ => holds_ok _
    | declined =>
      exact holds_close hw hl hc (by rw [hr]) (declines [])

theorem kept_flush (profile : Profile) : A.Kept Unit (Rendering.flush profile) :=
  fun p _ hw => holds_emit (Opening.ofWhole (p.runs.calls_whole profile)) { p with runs := ∅ } hw

theorem closed {setting : Setting} (A : Account setting.extensions σ) :
    Closed setting A.Kept fun _ _ => True where
  toCompositional := Bracketed.compositional {
    done := kept_pure
    andThen := kept_bind
    append _ _ _ _ _ := holds_ok _
    comment _ _ _ _ := holds_ok _
    flush := kept_flush _
    whole hc _ p _ hw := holds_emit (Opening.ofWhole hc) p hw
    element ht _ hc p _ hw := holds_enclosed (Opening.ofTag ht) hc p hw (closes_one _)
    enclosed hs _ hc p _ hw := holds_askDepth (holds_enclosed hs hc p hw (closes_closeTo _ _)) }
  passes := Html.closed_true
  visit := kept_visit
  cancelIf _ _ _ _ _ := holds_ok _
  tooDeep _ _ _ := holds_halt .tooDeep
  ofPass _ := kept_ofPass _
  askNumbering hf p w hw := hf _ p w hw
  setNumbering _ _ _ _ := holds_ok _
  offered ho hf := kept_offered ho hf

/-- The account of a whole rendering, which closes what is open after an error. -/
theorem renderUntil {setting : Setting} (A : Account setting.extensions σ) (limit : Nat) (d : Document)
    (inclusion : Bool) (fuse? : Option Nat) (hw : Works w) :
    ∃ hs, A.Leaves 0 w ((renderUntil setting limit d inclusion fuse?).steps w) hs
        ((renderUntil setting limit d inclusion fuse?).run w).2 ∧
      ∀ e, ((renderUntil setting limit d inclusion fuse?).run w).1 = .error e → e.Excused hs := by
  let m : Writing (Except RenderError (Unit × Progress)) :=
    Render.document setting limit d inclusion ⟨.start fuse?, ∅⟩
  have hm : A.Holds 0 w m := A.closed.document limit d inclusion _ w hw
  have he : (XamlDoc.renderUntil setting limit d inclusion fuse?).run w =
      (unwound (Writer.depth w) (m.run w).1).run (m.run w).2 := run_renderFrom ..
  have hs' : (XamlDoc.renderUntil setting limit d inclusion fuse?).steps w =
      m.steps w ++ (unwound (Writer.depth w) (m.run w).1).steps (m.run w).2 := steps_renderFrom ..
  rw [he, hs']
  cases hr : (m.run w).1 with
  | ok r =>
    obtain ⟨hs, hl⟩ := hm.ok hr
    refine ⟨hs, ?_, fun e h => by cases h⟩
    show A.Leaves 0 w (m.steps w ++ []) hs (m.run w).2
    rwa [List.append_nil]
  | error e =>
    obtain ⟨n, hs, hl, hx⟩ := hm.error hr
    have hw' : Works (m.run w).2 := works_run m hw
    obtain ⟨hc, hcs⟩ := closes_closeTo (Writer.depth w) n _ (A.depth hl)
    rw [run_unwound_error, steps_unwound_error, hc, hcs]
    refine ⟨hs, A.close hl hw', fun e' h => ?_⟩
    cases h
    exact hx

end Account

end XamlDoc
