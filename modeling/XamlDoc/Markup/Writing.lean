import XamlDoc.Markup.Call

/-!
# Writings

A writing is a program over a markup writer: it makes calls, goes on with their answers, may ask
for the number of open elements, and ends with a value. What it does to a writer is decided when it
is run on one, so one writing can be run on every kind of writer.
-/

namespace XamlDoc.Markup

inductive Writing (α : Type) where
  | done (value : α)
  | perform (c : Call) (next : Except WriteError Unit → Writing α)
  | askDepth (next : Nat → Writing α)

namespace Writing

variable {α β : Type}

def bind : Writing α → (α → Writing β) → Writing β
  | .done a, f => f a
  | .perform c next, f => .perform c fun r => (next r).bind f
  | .askDepth next, f => .askDepth fun n => (next n).bind f

instance : Monad Writing where
  pure := .done
  bind := bind

def run {σ : Type} [Writer σ] : Writing α → σ → α × σ
  | .done a, w => (a, w)
  | .perform c next, w =>
    let (answer, w) := Writer.perform c w
    (next answer).run w
  | .askDepth next, w => (next (Writer.depth w)).run w

def call (c : Call) : Writing (Except WriteError Unit) := .perform c .done

def depth : Writing Nat := .askDepth .done

/-- Make the calls in order, up to the first that is refused. -/
def calls : List Call → Writing (Except WriteError Unit)
  | [] => .done (.ok ())
  | c :: r => .perform c fun
    | .ok _ => calls r
    | .error e => .done (.error e)

/-- Close elements until `depth` are open, or a call is refused. -/
def closeTo (depth : Nat) : Writing (Except WriteError Unit) :=
  .askDepth fun now => calls (List.replicate (now - depth) .close)

theorem bind_assoc {γ : Type} (m : Writing α) (f : α → Writing β) (g : β → Writing γ) :
    (m.bind f).bind g = m.bind fun a => (f a).bind g := by
  induction m with
  | done a => rfl
  | perform c next ih => simp only [bind, ih]
  | askDepth next ih => simp only [bind, ih]

theorem bind_done (m : Writing α) : m.bind .done = m := by
  induction m with
  | done a => rfl
  | perform c next ih => simp only [bind, ih]
  | askDepth next ih => simp only [bind, ih]

theorem run_bind {σ : Type} [Writer σ] (m : Writing α) (f : α → Writing β) (w : σ) :
    (m.bind f).run w = (f (m.run w).1).run (m.run w).2 := by
  induction m generalizing w with
  | done a => rfl
  | perform c next ih => simp only [bind, run, ih]
  | askDepth next ih => simp only [bind, run, ih]

end Writing

end XamlDoc.Markup
