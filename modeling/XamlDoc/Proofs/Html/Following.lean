import XamlDoc.Proofs.Html.Closed

/-!
# A pass beside one that nobody stops

A pass in which nobody looks at the token reaches one node after the other; at each, the token has fired or
not. The same pass in which somebody looks is in step with it up to the first node at which it is found
that the token has fired, and is halted there.
-/

namespace XamlDoc

/-! ### What is found -/

namespace Watch

/-- At some of the nodes that are reached, it is found that the token has fired. Of each node it is told
whether it has. -/
def finds : Watch → List Bool → Bool
  | _, [] => false
  | v, fired :: r => v.looks && fired || v.next.finds r

/-- After some nodes. -/
def after : Watch → List Bool → Watch
  | v, [] => v
  | v, _ :: r => v.next.after r

theorem finds_append (v : Watch) (a b : List Bool) :
    v.finds (a ++ b) = (v.finds a || (v.after a).finds b) := by
  induction a generalizing v with
  | nil => rfl
  | cons fired r ih => rw [List.cons_append, finds, ih, finds, after, Bool.or_assoc]

theorem after_append (v : Watch) (a b : List Bool) : v.after (a ++ b) = (v.after a).after b := by
  induction a generalizing v with
  | nil => rfl
  | cons fired r ih => exact ih v.next

theorem finds_never (l : List Bool) : never.finds l = false := by
  induction l with
  | nil => rfl
  | cons fired r ih => exact ih

theorem finds_always_cons (fired : Bool) (r : List Bool) :
    always.finds (fired :: r) = (fired || always.finds r) := rfl

theorem finds_always_iff {l : List Bool} : always.finds l = true ↔ true ∈ l := by
  induction l with
  | nil => simp [finds]
  | cons fired r ih => rw [finds_always_cons, Bool.or_eq_true, ih, List.mem_cons, eq_comm]

/-- Who always looks finds it just if somebody finds it who looks only once. -/
theorem exists_once_finds_iff {l : List Bool} :
    (∃ n, (once n).finds l = true) ↔ always.finds l = true := by
  induction l with
  | nil => simp [finds]
  | cons fired r ih =>
    have hz : (once 0).finds (fired :: r) = fired := by simp [finds, looks, next, finds_never]
    rw [finds_always_cons, Bool.or_eq_true, ← ih]
    constructor
    · rintro ⟨_ | n, hn⟩
      · exact .inl (hz ▸ hn)
      · exact .inr ⟨n, hn⟩
    · rintro (hf | ⟨n, hn⟩)
      · exact ⟨0, hz.trans hf⟩
      · exact ⟨n + 1, hn⟩

end Watch

/-! ### States beside each other -/

namespace Traversal

/-- What is known of the token. -/
def token (t : Traversal) : Bool × Option Nat := (t.cancelled, t.fuse?)

/-- The tokens are in the same state, unless nobody looks at the second either. -/
structure Beside (t u : Traversal) : Prop where
  unwatched : t.watch = .never
  numbering : u.numbering = t.numbering
  token : u.watch ≠ .never → u.token = t.token

theorem burn_token {t u : Traversal} (h : u.token = t.token) : u.burn.token = t.burn.token := by
  obtain ⟨numbering, cancelled, fuse?, watch⟩ := t
  obtain ⟨numbering', cancelled', fuse?', watch'⟩ := u
  cases h
  rcases fuse? with _ | _ | n <;> rfl

theorem token_cancelIf {t u : Traversal} (h : u.token = t.token) (cancels : Bool) :
    (u.cancelIf cancels).token = (t.cancelIf cancels).token := by
  obtain ⟨numbering, cancelled, fuse?, watch⟩ := t
  obtain ⟨numbering', cancelled', fuse?', watch'⟩ := u
  cases h
  rfl

theorem not_stops_of_never {t : Traversal} (h : t.watch = .never) : t.stops = false := by
  rw [stops, h]
  rfl

/-- The token has not fired, and nothing outside is going to fire it. -/
def Quiet (t : Traversal) : Prop := t.token = (false, none)

theorem Quiet.burn {t : Traversal} (h : t.Quiet) : t.burn.Quiet := burn_token (t := .start none) h

theorem Quiet.cancelIf {t : Traversal} (h : t.Quiet) : (t.cancelIf false).Quiet :=
  token_cancelIf (t := .start none) h false

namespace Beside

variable {t u : Traversal}

theorem refl (h : t.watch = .never) : Beside t t := ⟨h, rfl, fun _ => rfl⟩

variable (h : Beside t u)
include h

theorem tick : Beside t.tick u.tick where
  unwatched := congrArg Watch.next h.unwatched
  numbering := by rw [numbering_tick, numbering_tick, h.numbering]
  token hu := burn_token (h.token fun hn => hu (congrArg Watch.next hn))

/-- The second is stopped just if it looks where the token of the first has fired. -/
theorem stops_eq : u.stops = (u.watch.looks && t.burn.cancelled) := by
  rw [stops]
  by_cases hn : u.watch = .never
  · rw [hn]
    rfl
  · rw [show u.burn.cancelled = t.burn.cancelled from congrArg Prod.fst (burn_token (h.token hn))]

theorem cancelIf (cancels : Bool) : Beside (t.cancelIf cancels) (u.cancelIf cancels) :=
  ⟨h.unwatched, h.numbering, fun hu => token_cancelIf (h.token hu) cancels⟩

theorem withNumbering (numbering : Numbering) : Beside { t with numbering } { u with numbering } :=
  ⟨h.unwatched, rfl, h.token⟩

end Beside

end Traversal

/-! ### Passes -/

namespace Html

variable {α β : Type}

/-- Evaluators that leave the token alone. -/
def Idle (evaluator? : Option Evaluator) : Prop :=
  ∀ evaluate, evaluator? = some evaluate → ∀ expression, (evaluate expression).cancels = false

/-- The ends of two passes in step, of which the second goes on watching as `v`. -/
inductive InStep (v : Watch) : Except Halt (α × Traversal) → Except Halt (α × Traversal) → Prop where
  | ok {a : α} {t u : Traversal} : t.Beside u → u.watch = v → InStep v (.ok (a, t)) (.ok (a, u))
  | error {e : Halt} : e ≠ .cancelled → InStep v (.error e) (.error e)

/-- How the same pass goes on from states beside `t`, if at the nodes that are reached from `t` the token has
fired as told. -/
structure Traced (evaluator? : Option Evaluator) (m : Pass α) (t : Traversal) (fired : List Bool) :
    Prop where
  inStep {u : Traversal} : t.Beside u → u.watch.finds fired = false →
    InStep (u.watch.after fired) (m t) (m u)
  stopped {u : Traversal} : t.Beside u → u.watch.finds fired = true → m u = .error .cancelled
  quiet : Idle evaluator? → t.Quiet → true ∉ fired ∧ ∀ a u, m t = .ok (a, u) → u.Quiet

namespace Traced

variable {evaluator? : Option Evaluator} {m : Pass α} {f : α → Pass β} {t t' u : Traversal} {a : α}
  {fired fired' : List Bool}

/-- The ends of passes that are in step, where the first has come to its end. -/
theorem ended (hm : Traced evaluator? m t fired) (hr : m t = .ok (a, t')) (h : t.Beside u)
    (hv : u.watch.finds fired = false) :
    ∃ u', m u = .ok (a, u') ∧ t'.Beside u' ∧ u'.watch = u.watch.after fired := by
  have hs := hm.inStep h hv
  rw [hr] at hs
  generalize m u = r at hs
  cases hs with
  | ok hb hw => exact ⟨_, rfl, hb, hw⟩

theorem failed {e : Halt} (hm : Traced evaluator? m t fired) (hr : m t = .error e) :
    Traced evaluator? (m >>= f) t fired where
  inStep {u} h hv := by
    have hs := hm.inStep h hv
    rw [bind_apply, bind_apply, hr]
    rw [hr] at hs
    generalize m u = r at hs
    cases hs with
    | error he => exact .error he
  stopped h hv := by rw [bind_apply, hm.stopped h hv]
  quiet hi hq := by
    refine ⟨(hm.quiet hi hq).1, fun b v hb => ?_⟩
    rw [bind_apply, hr] at hb
    cases hb

theorem andThen (hm : Traced evaluator? m t fired) (hr : m t = .ok (a, t'))
    (hf : Traced evaluator? (f a) t' fired') : Traced evaluator? (m >>= f) t (fired ++ fired') where
  inStep {u} h hv := by
    rw [Watch.finds_append, Bool.or_eq_false_iff] at hv
    obtain ⟨u', hu, hb, hw⟩ := hm.ended hr h hv.1
    rw [bind_apply, bind_apply, hr, hu, Watch.after_append, ← hw]
    exact hf.inStep hb (hw ▸ hv.2)
  stopped {u} h hv := by
    rw [bind_apply]
    cases hv' : u.watch.finds fired with
    | true => rw [hm.stopped h hv']
    | false =>
      rw [Watch.finds_append, hv', Bool.false_or] at hv
      obtain ⟨u', hu, hb, hw⟩ := hm.ended hr h hv'
      rw [hu]
      exact hf.stopped hb (hw ▸ hv)
  quiet hi hq := by
    obtain ⟨hn, ht⟩ := hm.quiet hi hq
    obtain ⟨hn', hu⟩ := hf.quiet hi (ht a t' hr)
    refine ⟨fun hm => (List.mem_append.1 hm).elim hn hn', fun b u hb => ?_⟩
    rw [bind_apply, hr] at hb
    exact hu b u hb

end Traced

/-- A pass that may be put beside itself. -/
def Follows (evaluator? : Option Evaluator) (α : Type) (m : Pass α) : Prop :=
  ∀ t : Traversal, t.watch = .never → ∃ fired, Traced evaluator? m t fired

namespace Follows

variable {evaluator? : Option Evaluator}

/-- A step of a pass at which no node is reached. -/
theorem step {m : Pass α} {f : Numbering → α} {g : Traversal → Traversal}
    (hm : ∀ t, m t = .ok (f t.numbering, g t)) (hw : ∀ t, (g t).watch = t.watch)
    (hg : ∀ {t u}, t.Beside u → (g t).Beside (g u))
    (hq : ∀ {t}, Idle evaluator? → t.Quiet → (g t).Quiet) : Follows evaluator? α m := by
  refine fun t _ => ⟨[], fun {u} h _ => ?_, nofun, fun hi ht => ⟨List.not_mem_nil, fun a u hr => ?_⟩⟩
  · rw [hm, hm, h.numbering]
    exact .ok (hg h) (hw u)
  · rw [hm] at hr
    cases hr
    exact hq hi ht

theorem done (a : α) : Follows evaluator? α (pure a) :=
  step (f := fun _ => a) (g := id) (fun _ => rfl) (fun _ => rfl) (fun h => h) fun _ h => h

theorem andThen {m : Pass α} {f : α → Pass β} (hm : Follows evaluator? α m)
    (hf : ∀ a, Follows evaluator? β (f a)) : Follows evaluator? β (m >>= f) := by
  intro t ht
  obtain ⟨fired, hm⟩ := hm t ht
  cases hr : m t with
  | error e => exact ⟨fired, hm.failed hr⟩
  | ok r =>
    obtain ⟨a, t'⟩ := r
    obtain ⟨_, -, hb, -⟩ := hm.ended hr (.refl ht) (ht ▸ Watch.finds_never fired)
    obtain ⟨fired', hf⟩ := hf a t' hb.unwatched
    exact ⟨fired ++ fired', hm.andThen hr hf⟩

theorem visit {m : Pass α} (hm : Follows evaluator? α m) : Follows evaluator? α (visit m) := by
  intro t ht
  obtain ⟨fired, hm⟩ := hm t.tick (congrArg Watch.next ht)
  have hv : Html.visit m t = m t.tick := by
    rw [visit_apply, Traversal.not_stops_of_never ht, if_neg Bool.false_ne_true]
  refine ⟨t.burn.cancelled :: fired, fun {u} h hf => ?_, fun {u} h hf => ?_, fun hi hq => ?_⟩
  · rw [Watch.finds, Bool.or_eq_false_iff] at hf
    rw [hv, visit_apply, h.stops_eq, hf.1, if_neg Bool.false_ne_true]
    exact hm.inStep h.tick hf.2
  · rw [visit_apply, h.stops_eq]
    split
    · rfl
    · rename_i hs
      rw [Watch.finds, Bool.eq_false_iff.2 hs, Bool.false_or] at hf
      exact hm.stopped h.tick hf
  · have hb := hq.burn
    obtain ⟨hn, hu⟩ := hm.quiet hi hb
    rw [hv]
    refine ⟨fun hm => (List.mem_cons.1 hm).elim (fun hc => ?_) hn, hu⟩
    exact Bool.false_ne_true ((congrArg Prod.fst hb).symm.trans hc.symm)

theorem ownNumbers {m : Part} (hm : Follows evaluator? _ m) : Follows evaluator? _ (ownNumbers m) := by
  have hset (numbering : Numbering) : Follows evaluator? Unit (modify fun t => { t with numbering }) :=
    step (f := fun _ => ()) (g := fun t => { t with numbering }) (fun _ => rfl) (fun _ => rfl)
      (fun h => h.withNumbering numbering) fun _ h => h
  have hget : Follows evaluator? Numbering (do pure (← get).numbering) :=
    step (f := id) (g := id) (fun _ => rfl) (fun _ => rfl) (fun h => h) fun _ h => h
  exact hget.andThen fun outer => (hset ∅).andThen fun _ => hm.andThen fun a =>
    (hset outer).andThen fun _ => done a

theorem closed : Closed evaluator? (Follows evaluator?) where
  done := done
  andThen := andThen
  visit := visit
  cancelIf {evaluate} expression he := step (f := fun _ => ())
    (g := fun t => t.cancelIf (evaluate expression).cancels) (fun _ => rfl) (fun _ => rfl)
    (fun h => h.cancelIf _) fun hi h => hi evaluate he expression ▸ h.cancelIf
  tooDeep := fun _ _ => ⟨[], fun _ _ => .error nofun, nofun, fun _ _ => ⟨List.not_mem_nil, nofun⟩⟩
  number key := step (f := fun n => (n.reference key).1)
    (g := fun t => { t with numbering := (t.numbering.reference key).2 }) (fun _ => rfl) (fun _ => rfl)
    (fun {t u} h => by
      rw [h.numbering]
      exact h.withNumbering _) fun _ h => h
  ownNumbers := ownNumbers

end Follows

end Html

end XamlDoc
