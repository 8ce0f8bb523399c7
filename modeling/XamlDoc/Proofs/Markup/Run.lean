import XamlDoc.Markup.Writing

/-!
# Runs of writings

What happens while a writing runs on a writer: the calls made, each with the state it is made in. A
run of a sequence of writings is the run of the first followed by the run of the second.
-/

namespace XamlDoc.Markup

variable {σ α β : Type} [Writer σ]

/-! ### Sequences of calls -/

namespace Writer

/-- The writer after some calls, of which it may have refused some. -/
def after : List Call → σ → σ
  | [], w => w
  | c :: r, w => after r (perform c w).2

theorem after_append (a b : List Call) (w : σ) : after (a ++ b) w = after b (after a w) := by
  induction a generalizing w with
  | nil => rfl
  | cons c r ih => exact ih _

def answers : List Call → σ → List (Except WriteError Unit)
  | [], _ => []
  | c :: r, w => (perform c w).1 :: answers r (perform c w).2

end Writer

/-! ### The calls of a run -/

/-- A call and the state it is made in. -/
abbrev Step (σ : Type) := σ × Call

def Refused (s : Step σ) : Prop := (Writer.perform s.2 s.1).1 ≠ .ok ()

namespace Writing

def steps : Writing α → σ → List (Step σ)
  | .done _, _ => []
  | .perform c next, w => (w, c) :: (next (Writer.perform c w).1).steps (Writer.perform c w).2
  | .askDepth next, w => (next (Writer.depth w)).steps w

def made (m : Writing α) (w : σ) : List Call := (m.steps w).map Prod.snd

instance : LawfulMonad Writing :=
  LawfulMonad.mk' Writing (fun m => bind_done m) (fun _ _ => rfl) bind_assoc

@[simp] theorem run_done (a : α) (w : σ) : (Writing.done a).run w = (a, w) := rfl

@[simp] theorem steps_done (a : α) (w : σ) : (Writing.done a).steps w = [] := rfl

theorem steps_bind (m : Writing α) (f : α → Writing β) (w : σ) :
    (m.bind f).steps w = m.steps w ++ (f (m.run w).1).steps (m.run w).2 := by
  induction m generalizing w with
  | done a => rfl
  | perform c next ih =>
    show (w, c) :: _ = (w, c) :: _
    rw [ih]
    rfl
  | askDepth next ih =>
    show ((next _).bind f).steps w = _
    rw [ih]
    rfl

theorem made_bind (m : Writing α) (f : α → Writing β) (w : σ) :
    (m.bind f).made w = m.made w ++ (f (m.run w).1).made (m.run w).2 := by
  simp only [made, steps_bind, List.map_append]

/-- A run leaves the writer as the calls made in it do. -/
theorem run_eq_after (m : Writing α) (w : σ) : (m.run w).2 = Writer.after (m.made w) w := by
  induction m generalizing w with
  | done a => rfl
  | perform c next ih => exact ih _ _
  | askDepth next ih => exact ih _ w

theorem run_of_made {m : Writing α} {w : σ} {a : α} {cs : List Call} (hr : (m.run w).1 = a) (hm : m.made w = cs) :
    m.run w = (a, Writer.after cs w) := by
  rw [← hm, ← run_eq_after, ← hr]

@[simp] theorem made_done (a : α) (w : σ) : (Writing.done a).made w = [] := rfl

@[simp] theorem made_askDepth (next : Nat → Writing α) (w : σ) :
    (Writing.askDepth next).made w = (next (Writer.depth w)).made w := rfl

theorem made_calls {cs : List Call} {w : σ} (h : ((calls cs).run w).1 = .ok ()) : (calls cs).made w = cs := by
  induction cs generalizing w with
  | nil => rfl
  | cons c r ih =>
    rw [calls, run] at h
    rw [calls, made, steps, List.map_cons]
    generalize Writer.perform c w = step at h ⊢
    obtain ⟨⟨⟩ | ⟨⟩, w'⟩ := step
    · cases h
    · exact congrArg (c :: ·) (ih h)

theorem run_closeTo_of_le {w : σ} {depth : Nat} (h : Writer.depth w ≤ depth) :
    (closeTo depth).run w = (.ok (), w) := by
  rw [closeTo, run, Nat.sub_eq_zero_of_le h]
  rfl

theorem made_closeTo_of_le {w : σ} {depth : Nat} (h : Writer.depth w ≤ depth) : (closeTo depth).made w = [] := by
  rw [closeTo, made_askDepth, Nat.sub_eq_zero_of_le h]
  rfl

end Writing

end XamlDoc.Markup
