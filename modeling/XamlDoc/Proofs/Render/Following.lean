import XamlDoc.Proofs.Html.Following
import XamlDoc.Proofs.Render.Closed

/-!
# A rendering beside one that nobody stops

A rendering in which somebody looks at the token, beside the same rendering in which nobody does. On one
writer they make the same calls, until the first is stopped at a node at which it finds that its token has
fired.
-/

namespace XamlDoc

open Markup

/-- Handlers and scripts leave the token alone. -/
structure Extensions.Idle (x : Extensions) (σ : Type) [Writer σ] : Prop where
  evaluator : Html.Idle x.evaluator?
  handlers {handler : HandlerContext → Writing Handled} (context : HandlerContext) (w : σ) :
    x.Offers handler → ((handler context).run w).1.cancels = false

structure Progress.Beside (p q : Progress) : Prop where
  traversal : p.traversal.Beside q.traversal
  runs : q.runs = p.runs

namespace Rendering

variable {x : Extensions} {σ α β : Type} [Writer σ] {w : σ}

/-- The ends of two renderings in step, of which the second goes on watching as `v`. -/
inductive SameEnd (v : Watch) :
    Except RenderError (α × Progress) → Except RenderError (α × Progress) → Prop where
  | ok {a : α} {p q : Progress} : p.Beside q → q.traversal.watch = v → SameEnd v (.ok (a, p)) (.ok (a, q))
  | error {e : RenderError} : e ≠ .cancelled → SameEnd v (.error e) (.error e)

/-- Two runs in step on one writer. -/
structure InStep (v : Watch) (w : σ) (m n : Writing (Except RenderError (α × Progress))) : Prop where
  steps : n.steps w = m.steps w
  writer : (n.run w).2 = (m.run w).2
  ends : SameEnd v (m.run w).1 (n.run w).1

/-- The second run was stopped where the first went on. -/
structure Stopped (w : σ) (m n : Writing (Except RenderError (α × Progress))) : Prop where
  cancelled : (n.run w).1 = .error .cancelled
  steps : n.steps w <+: m.steps w

section

variable {v : Watch} {c c' : Writing β} {f g : β → Writing (Except RenderError (α × Progress))}

/-- What both do in step first makes no difference. -/
theorem InStep.after (hs : c'.steps w = c.steps w) (hw : (c'.run w).2 = (c.run w).2)
    (h : InStep v (c.run w).2 (f (c.run w).1) (g (c'.run w).1)) : InStep v w (c.bind f) (c'.bind g) where
  steps := by rw [Writing.steps_bind, Writing.steps_bind, hs, hw, h.steps]
  writer := by rw [Writing.run_bind, Writing.run_bind, hw, h.writer]
  ends := by
    rw [Writing.run_bind, Writing.run_bind, hw]
    exact h.ends

theorem Stopped.after (hs : c'.steps w = c.steps w) (hw : (c'.run w).2 = (c.run w).2)
    (h : Stopped (c.run w).2 (f (c.run w).1) (g (c'.run w).1)) : Stopped w (c.bind f) (c'.bind g) where
  cancelled := by rw [Writing.run_bind, hw, h.cancelled]
  steps := by
    rw [Writing.steps_bind, Writing.steps_bind, hs, hw]
    exact (List.prefix_append_right_inj _).2 h.steps

end

/-- How the same rendering goes on from states beside `p`, if at the nodes that are reached from `p` the token
has fired as told. -/
structure Traced (x : Extensions) (m : Rendering α) (p : Progress) (w : σ) (fired : List Bool) : Prop where
  inStep {q : Progress} : p.Beside q → q.traversal.watch.finds fired = false →
    InStep (q.traversal.watch.after fired) w (m p) (m q)
  stopped {q : Progress} : p.Beside q → q.traversal.watch.finds fired = true → Stopped w (m p) (m q)
  quiet : x.Idle σ → p.traversal.Quiet →
    true ∉ fired ∧ ∀ a q, (Writing.run (m p) w).1 = .ok (a, q) → q.traversal.Quiet

namespace Traced

variable {m : Rendering α} {f : α → Rendering β} {p p' q : Progress} {a : α} {fired fired' : List Bool}

/-- The ends of renderings that are in step, where the first has come to its end. -/
theorem ended (hm : Traced x m p w fired) (hr : (Writing.run (m p) w).1 = .ok (a, p')) (h : p.Beside q)
    (hv : q.traversal.watch.finds fired = false) :
    ∃ q', (Writing.run (m q) w).1 = .ok (a, q') ∧ p'.Beside q' ∧
      q'.traversal.watch = q.traversal.watch.after fired := by
  have hs := (hm.inStep h hv).ends
  rw [hr] at hs
  generalize (Writing.run (m q) w).1 = r at hs
  cases hs with
  | ok hb hw => exact ⟨_, rfl, hb, hw⟩

/-- Nothing comes after what was stopped. -/
theorem stopped_bind (hm : Traced x m p w fired) (h : p.Beside q)
    (hv : q.traversal.watch.finds fired = true) : Stopped w ((m >>= f) p) ((m >>= f) q) := by
  obtain ⟨hr, hs⟩ := hm.stopped h hv
  refine ⟨?_, ?_⟩
  · rw [bind_apply, Writing.run_bind, hr]
    rfl
  · rw [bind_apply, bind_apply, Writing.steps_bind, Writing.steps_bind, hr]
    exact (List.append_nil _).symm ▸ hs.trans (List.prefix_append _ _)

theorem failed {e : RenderError} (hm : Traced x m p w fired) (hr : (Writing.run (m p) w).1 = .error e) :
    Traced x (m >>= f) p w fired where
  inStep {q} h hv := by
    obtain ⟨hs, hw, he⟩ := hm.inStep h hv
    rw [bind_apply, bind_apply]
    refine .after hs hw ?_
    rw [hr] at he ⊢
    generalize (Writing.run (m q) w).1 = r at he ⊢
    cases he with
    | error he => exact ⟨rfl, rfl, .error he⟩
  stopped h hv := hm.stopped_bind h hv
  quiet hi hq := by
    refine ⟨(hm.quiet hi hq).1, fun b q hb => ?_⟩
    rw [bind_apply, Writing.run_bind, hr] at hb
    cases hb

theorem bind (hm : Traced x m p w fired) (hr : (Writing.run (m p) w).1 = .ok (a, p'))
    (hf : Traced x (f a) p' (Writing.run (m p) w).2 fired') : Traced x (m >>= f) p w (fired ++ fired') where
  inStep {q} h hv := by
    rw [Watch.finds_append, Bool.or_eq_false_iff] at hv
    obtain ⟨q', hq, hb, hw⟩ := hm.ended hr h hv.1
    have hs := hm.inStep h hv.1
    rw [bind_apply, bind_apply, Watch.after_append, ← hw]
    refine .after hs.steps hs.writer ?_
    rw [hr, hq]
    exact hf.inStep hb (hw ▸ hv.2)
  stopped {q} h hv := by
    cases hv' : q.traversal.watch.finds fired with
    | true => exact hm.stopped_bind h hv'
    | false =>
      rw [Watch.finds_append, hv', Bool.false_or] at hv
      obtain ⟨q', hq, hb, hw⟩ := hm.ended hr h hv'
      have hs := hm.inStep h hv'
      rw [bind_apply, bind_apply]
      refine .after hs.steps hs.writer ?_
      rw [hr, hq]
      exact hf.stopped hb (hw ▸ hv)
  quiet hi hq := by
    obtain ⟨hn, hp⟩ := hm.quiet hi hq
    obtain ⟨hn', hq'⟩ := hf.quiet hi (hp a p' hr)
    refine ⟨fun hm => (List.mem_append.1 hm).elim hn hn', fun b q hb => ?_⟩
    rw [bind_apply, Writing.run_bind, hr] at hb
    exact hq' b q hb

end Traced

/-- A rendering that may be put beside itself. -/
def Follows (x : Extensions) (σ : Type) [Writer σ] (α : Type) (m : Rendering α) : Prop :=
  ∀ (p : Progress) (w : σ), p.traversal.watch = .never → ∃ fired, Traced x m p w fired

namespace Follows

/-! ### Steps -/

/-- A writing, and what is made of its answer without reaching a node. -/
theorem step {m : Rendering α} {c : Writing β} {f : β → Progress → Except RenderError (α × Progress)}
    (hm : ∀ p, m p = c.bind fun b => .done (f b p))
    (hs : ∀ b {p q}, p.Beside q → SameEnd q.traversal.watch (f b p) (f b q))
    (hq : ∀ (w : σ) {p a q}, x.Idle σ → p.traversal.Quiet → f (c.run w).1 p = .ok (a, q) →
      q.traversal.Quiet) : Follows x σ α m := by
  refine fun p w _ => ⟨[], fun {q} h _ => ?_, nofun, fun hi hp => ⟨List.not_mem_nil, fun a q hr => ?_⟩⟩
  · rw [hm, hm]
    exact .after rfl rfl ⟨rfl, rfl, hs _ h⟩
  · rw [hm, Writing.run_bind] at hr
    exact hq w hi hp hr

/-- A step that writes nothing and reaches no node. -/
theorem silent {m : Rendering α} {f : Progress → α} {g : Progress → Progress}
    (hm : ∀ p, m p = .done (.ok (f p, g p)))
    (hg : ∀ {p q}, p.Beside q → f q = f p ∧ (g p).Beside (g q) ∧ (g q).traversal.watch = q.traversal.watch)
    (hq : ∀ {p}, x.Idle σ → p.traversal.Quiet → (g p).traversal.Quiet) : Follows x σ α m := by
  refine step (c := .done ()) (f := fun _ p => .ok (f p, g p)) hm (fun _ {p q} h => ?_)
    fun w {p a q} hi hp hr => ?_
  · obtain ⟨hf, hb, hw⟩ := hg h
    rw [hf]
    exact .ok hb hw
  · cases hr
    exact hq hi hp

theorem done (a : α) : Follows x σ α (pure a) :=
  silent (f := fun _ => a) (g := id) (fun _ => rfl) (fun h => ⟨rfl, h, rfl⟩) fun _ h => h

theorem fail {e : RenderError} (he : e ≠ .cancelled) : Follows x σ α (throw e) :=
  step (c := .done ()) (f := fun _ _ => .error e) (fun _ => rfl) (fun _ _ _ _ => .error he)
    fun _ {_ _ _} _ _ hr => by cases hr

theorem modifyRuns (g : RunBuffer → RunBuffer) :
    Follows x σ Unit (modify fun p => { p with runs := g p.runs }) :=
  silent (f := fun _ => ()) (g := fun p => { p with runs := g p.runs }) (fun _ => rfl)
    (fun h => ⟨rfl, ⟨h.traversal, congrArg g h.runs⟩, rfl⟩) fun _ h => h

theorem ofQuiet (c : Writing α) : Follows x σ α (ofQuiet c) :=
  step (c := c) (f := fun a p => .ok (a, p)) (fun _ => rfl) (fun _ _ _ h => .ok h rfl)
    fun w {p a q} _ hp hr => by
      cases hr
      exact hp

theorem ofWriting (c : Writing (Except WriteError α)) : Follows x σ α (ofWriting c) := by
  refine step (c := c) (f := fun r p => (r.mapError .write).map fun a => (a, p)) (fun p => ?_)
    (fun r {p q} h => ?_) fun w {p a q} _ hp hr => ?_
  · rw [Rendering.ofWriting]
    congr 1
    funext r
    cases r <;> rfl
  · cases r with
    | ok a => exact .ok h rfl
    | error e => exact .error fun hk => by cases hk
  · cases hc : (c.run w).1 with
    | ok b =>
      rw [hc] at hr
      cases hr
      exact hp
    | error e =>
      rw [hc] at hr
      cases hr

theorem bind {m : Rendering α} {f : α → Rendering β} (hm : Follows x σ α m)
    (hf : ∀ a, Follows x σ β (f a)) : Follows x σ β (m >>= f) := by
  intro p w hp
  obtain ⟨fired, hm⟩ := hm p w hp
  cases hr : (Writing.run (m p) w).1 with
  | error e => exact ⟨fired, hm.failed hr⟩
  | ok r =>
    obtain ⟨a, p'⟩ := r
    obtain ⟨_, -, hb, -⟩ := hm.ended hr ⟨.refl hp, rfl⟩ (hp ▸ Watch.finds_never fired)
    obtain ⟨fired', hf⟩ := hf a p' _ hb.traversal.unwatched
    exact ⟨fired ++ fired', hm.bind hr hf⟩

theorem visit {m : Rendering Unit} (hm : Follows x σ Unit m) : Follows x σ Unit (visit m) := by
  intro p w hp
  let tick (p : Progress) : Progress := { p with traversal := p.traversal.tick }
  obtain ⟨fired, hm⟩ := hm (tick p) w (congrArg Watch.next hp)
  have hv : Rendering.visit m p = m (tick p) := by
    rw [Render.visit_apply, Traversal.not_stops_of_never hp, if_neg Bool.false_ne_true]
  have htick {q : Progress} (h : p.Beside q) : (tick p).Beside (tick q) := ⟨h.traversal.tick, h.runs⟩
  refine ⟨p.traversal.burn.cancelled :: fired, fun {q} h hf => ?_, fun {q} h hf => ?_, fun hi hq => ?_⟩
  · rw [Watch.finds, Bool.or_eq_false_iff] at hf
    rw [hv, Render.visit_apply, h.traversal.stops_eq, hf.1, if_neg Bool.false_ne_true]
    exact hm.inStep (htick h) hf.2
  · rw [hv, Render.visit_apply, h.traversal.stops_eq]
    split
    · exact ⟨rfl, List.nil_prefix⟩
    · rename_i hs
      rw [Watch.finds, Bool.eq_false_iff.2 hs, Bool.false_or] at hf
      exact hm.stopped (htick h) hf
  · have hb := hq.burn
    obtain ⟨hn, hu⟩ := hm.quiet hi hb
    rw [hv]
    refine ⟨fun hm => (List.mem_cons.1 hm).elim (fun hc => ?_) hn, hu⟩
    exact Bool.false_ne_true ((congrArg Prod.fst hb).symm.trans hc.symm)

theorem ofPass {m : Html.Pass α} (hm : Html.Follows x.evaluator? α m) : Follows x σ α (ofPass m) := by
  intro p w hp
  obtain ⟨fired, hm⟩ := hm p.traversal hp
  refine ⟨fired, fun {q} h hv => ?_, fun {q} h hv => ?_, fun hi hq => ?_⟩
  · have hs := hm.inStep h.traversal hv
    rw [Rendering.ofPass, Rendering.ofPass]
    generalize m p.traversal = r, m q.traversal = r' at hs
    cases hs with
    | ok hb hw => exact ⟨rfl, rfl, .ok ⟨hb, h.runs⟩ hw⟩
    | @error e he =>
      cases e with
      | cancelled => exact (he rfl).elim
      | tooDeep => exact ⟨rfl, rfl, .error fun h => by cases h⟩
  · rw [Rendering.ofPass, Rendering.ofPass, hm.stopped h.traversal hv]
    exact ⟨rfl, List.nil_prefix⟩
  · obtain ⟨hn, hu⟩ := hm.quiet hi.evaluator hq
    refine ⟨hn, fun a q hr => ?_⟩
    rw [Rendering.ofPass] at hr
    split at hr
    · rename_i hm
      cases hr
      exact hu _ _ hm
    · cases hr

/-! ### Handlers -/

theorem offer_apply (handler : HandlerContext → Writing Handled) (s : Scope) (alignment : Alignment)
    (p : Progress) : Render.offer handler s alignment p =
      (handler ⟨alignment, s.dialect⟩).bind fun handled =>
        .done (.ok (handled.result, { p with traversal := p.traversal.cancelIf handled.cancels })) := by
  rw [Render.offer, bind_apply, Rendering.ofQuiet, Writing.bind_assoc]
  rfl

theorem offer {handler : HandlerContext → Writing Handled} (ho : x.Offers handler) (s : Scope)
    (alignment : Alignment) : Follows x σ _ (Render.offer handler s alignment) := by
  refine step (offer_apply handler s alignment) (fun handled {p q} h => ?_) fun w {p a q} hi hp hr => ?_
  · exact .ok ⟨h.traversal.cancelIf _, h.runs⟩ rfl
  · rw [hi.handlers _ w ho] at hr
    cases hr
    exact hp.cancelIf

theorem offered {handler : HandlerContext → Writing Handled} {s : Scope} {alignment : Alignment}
    {fallback : List String → Rendering Unit} (ho : x.Offers handler)
    (hf : ∀ messages, Follows x σ Unit (fallback messages)) :
    Follows x σ Unit (Render.offered handler s alignment fallback) := by
  refine (ofQuiet _).bind fun depth => (offer ho s alignment).bind fun result => ?_
  rcases result with e | outcome
  · cases e with
    | write e => exact fail nofun
    | failed message => exact (ofQuiet _).bind fun _ => hf [message]
    | aggregate messages => exact (ofQuiet _).bind fun _ => hf messages
  · cases outcome with
    | rendered => exact ofWriting _
    | declined => exact (ofQuiet _).bind fun _ => hf []

/-! ### Documents -/

theorem emit (cs : List Call) : Follows x σ Unit (emit cs) := ofWriting _

theorem closed {setting : Setting} : Closed setting (Follows setting.extensions σ)
    (Html.Follows setting.extensions.evaluator?) where
  toCompositional := Bracketed.compositional {
    done := done
    andThen := bind
    append r a := modifyRuns fun runs => runs.append r a
    comment t := modifyRuns fun runs => runs.appendComment t
    flush := (silent (f := fun p => p.runs) (g := fun p => { p with runs := ∅ }) (fun _ => rfl)
      (fun h => ⟨h.runs, ⟨h.traversal, rfl⟩, rfl⟩) fun _ h => h).bind fun runs => emit (runs.calls _)
    whole _ _ := emit _
    element _ _ hc := (emit _).bind fun _ => hc.bind fun _ => emit _
    enclosed _ _ hc := (ofQuiet _).bind fun depth => (emit _).bind fun _ => hc.bind fun _ =>
      ofWriting (Writing.closeTo depth) }
  passes := Html.Follows.closed
  visit := visit
  cancelIf {evaluate} expression he := silent (f := fun _ => ())
    (g := fun p => { p with traversal := p.traversal.cancelIf (evaluate expression).cancels })
    (fun _ => rfl) (fun h => ⟨rfl, ⟨h.traversal.cancelIf _, h.runs⟩, rfl⟩)
    fun hi h => hi.evaluator evaluate he expression ▸ h.cancelIf
  tooDeep := fail nofun
  ofPass := ofPass
  askNumbering hf := (silent (f := fun p => p.traversal.numbering) (g := id) (fun _ => rfl)
    (fun h => ⟨h.traversal.numbering, h, rfl⟩) fun _ h => h).bind hf
  setNumbering n := silent (f := fun _ => ())
    (g := fun p => { p with traversal := { p.traversal with numbering := n } }) (fun _ => rfl)
    (fun h => ⟨rfl, ⟨h.traversal.withNumbering n, h.runs⟩, rfl⟩) fun _ h => h
  offered ho hf := offered ho hf

end Follows

end Rendering

end XamlDoc
