import XamlDoc.Proofs.Footnote.Printing

/-!
# Footnotes expanded in place

References followed one by one, with the footnotes that are being expanded on a stack. A footnote is put on the
stack before the references in its content are followed and taken from it after them. So the stack is afterwards
as it was, and the numbers given are those that are printed.
-/

namespace XamlDoc

structure Expansion where
  /-- The footnotes that are being expanded, the innermost first. -/
  stack : List String
  numbering : Numbering

namespace Expansion

/-- Begin to expand a footnote, unless it is being expanded. -/
def begin? (e : Expansion) (key : String) : Option Expansion :=
  if e.stack.contains key then none else some { e with stack := key :: e.stack }

def finish (e : Expansion) : Expansion := { e with stack := e.stack.tail }

def reference (e : Expansion) (key : String) : Expansion := { e with numbering := e.numbering.add key }

end Expansion

namespace Footnotes

variable (t : Footnotes) (c : Sight)

/-- Follow a reference: give the number of its footnote, or expand it with at most `levels` more inside. -/
def follow : Nat → Expansion → ShownLink → Expansion
  | 0, e, s =>
    match t.get? s.link.key with
    | none => e
    | some _ => e.reference s.link.key
  | levels + 1, e, s =>
    match t.get? s.link.key with
    | none => e
    | some _ =>
      match if s.link.autoExpand then e.begin? s.link.key else none with
      | none => e.reference s.link.key
      | some inside => ((t.shown c s.view s.link.key).foldl (follow levels) inside).finish

variable {t c} {levels : Nat}

theorem foldl_follow_of_follow
    (h : ∀ e s, t.follow c levels e s = ⟨e.stack, e.numbering.addAll (t.printed c levels e.stack s)⟩)
    (l : List ShownLink) (e : Expansion) : l.foldl (t.follow c levels) e =
      ⟨e.stack, e.numbering.addAll (l.flatMap (t.printed c levels e.stack))⟩ := by
  induction l generalizing e with
  | nil => rfl
  | cons s r ih => rw [List.foldl_cons, ih, h, List.flatMap_cons, Numbering.addAll_append]

/-- After a reference the stack is as it was. -/
theorem follow_eq (levels : Nat) (e : Expansion) (s : ShownLink) :
    t.follow c levels e s = ⟨e.stack, e.numbering.addAll (t.printed c levels e.stack s)⟩ := by
  induction levels generalizing e s with
  | zero =>
    rw [follow, printed]
    cases t.get? s.link.key <;> rfl
  | succ levels ih =>
    rw [follow, printed]
    cases t.get? s.link.key with
    | none => rfl
    | some f =>
      by_cases hx : (s.link.autoExpand && !e.stack.contains s.link.key) = true
      · have hb : (if s.link.autoExpand then e.begin? s.link.key else none) =
            some { e with stack := s.link.key :: e.stack } := by
          simp only [Bool.and_eq_true, Bool.not_eq_true'] at hx
          rw [if_pos hx.1, Expansion.begin?, hx.2]
          rfl
        simp only [hb, if_pos hx]
        rw [foldl_follow_of_follow ih]
        rfl
      · have hb : (if s.link.autoExpand then e.begin? s.link.key else none) = none := by
          cases ha : s.link.autoExpand with
          | false => rfl
          | true =>
            have hc : e.stack.contains s.link.key = true := by simpa [ha] using hx
            exact if_pos hc
        simp only [hb, if_neg hx]
        rfl

theorem foldl_follow (levels : Nat) (l : List ShownLink) (e : Expansion) : l.foldl (t.follow c levels) e =
    ⟨e.stack, e.numbering.addAll (l.flatMap (t.printed c levels e.stack))⟩ :=
  foldl_follow_of_follow (follow_eq levels) l e

end Footnotes

end XamlDoc
