/-!
# Comment text

A comment may neither contain `--` nor end with `-`. Pairs of dashes are spread apart by spaces until
none is left, and a dash at the end gets a space after it.
-/

namespace XamlDoc.Markup.Xml

/-- Every `--` becomes `- -`, taken from left to right without overlap. -/
def spreadOnce : List Char → List Char
  | '-' :: '-' :: r => '-' :: ' ' :: '-' :: spreadOnce r
  | c :: r => c :: spreadOnce r
  | [] => []

def adjacentDashes : List Char → Nat
  | '-' :: '-' :: r => adjacentDashes ('-' :: r) + 1
  | _ :: r => adjacentDashes r
  | [] => 0

theorem adjacentDashes_dash_dash (r : List Char) :
    adjacentDashes ('-' :: '-' :: r) = adjacentDashes ('-' :: r) + 1 := rfl

theorem adjacentDashes_cons {c : Char} (h : c ≠ '-') (r : List Char) :
    adjacentDashes (c :: r) = adjacentDashes r := by
  rw [adjacentDashes]
  rintro t rfl
  exact absurd rfl h

theorem adjacentDashes_dash_cons {c : Char} (h : c ≠ '-') (r : List Char) :
    adjacentDashes ('-' :: c :: r) = adjacentDashes r := by
  rw [adjacentDashes, adjacentDashes_cons h]
  rintro t - heq
  exact h (List.cons.inj heq).1

theorem spreadOnce_cons {c : Char} (h : c ≠ '-') (r : List Char) :
    spreadOnce (c :: r) = c :: spreadOnce r := by
  rw [spreadOnce]
  rintro t rfl
  exact absurd rfl h

/-- A pass adds no pair, not even with a dash in front of it. -/
theorem adjacentDashes_spreadOnce_le (s : List Char) :
    adjacentDashes (spreadOnce s) ≤ adjacentDashes s ∧
      adjacentDashes ('-' :: spreadOnce s) ≤ adjacentDashes ('-' :: s) := by
  fun_induction spreadOnce s with
  | case1 r ih =>
    have h := adjacentDashes_cons (c := ' ') (by decide) ('-' :: spreadOnce r)
    have h' := adjacentDashes_dash_cons (c := ' ') (by decide) ('-' :: spreadOnce r)
    simp only [adjacentDashes_dash_dash, h']
    omega
  | case2 c r _ ih =>
    by_cases hc : c = '-'
    · subst hc
      simp only [adjacentDashes_dash_dash]
      omega
    · simp only [adjacentDashes_cons hc, adjacentDashes_dash_cons hc]
      omega
  | case3 => exact ⟨Nat.le_refl _, Nat.le_refl _⟩

/-- A pass removes at least one pair if there is one. -/
theorem adjacentDashes_spreadOnce_lt (s : List Char) (h : adjacentDashes s ≠ 0) :
    adjacentDashes (spreadOnce s) < adjacentDashes s := by
  fun_induction spreadOnce s with
  | case1 r =>
    have h' := adjacentDashes_dash_cons (c := ' ') (by decide) ('-' :: spreadOnce r)
    have := (adjacentDashes_spreadOnce_le r).2
    simp only [adjacentDashes_dash_dash, h']
    omega
  | case2 c r hr ih =>
    by_cases hc : c = '-'
    · subst hc
      cases r with
      | nil => exact absurd rfl h
      | cons d t =>
        have hd : d ≠ '-' := fun e => hr t rfl (e ▸ rfl)
        rw [adjacentDashes_dash_cons hd] at h ⊢
        have ht := ih (by rwa [adjacentDashes_cons hd])
        rw [spreadOnce_cons hd] at ht ⊢
        rw [adjacentDashes_dash_cons hd]
        rwa [adjacentDashes_cons hd, adjacentDashes_cons hd] at ht
    · rw [adjacentDashes_cons hc] at h ⊢
      rw [adjacentDashes_cons hc]
      exact ih h
  | case3 => exact absurd rfl h

/-- Passes until no dash follows a dash. -/
def spread (s : List Char) : List Char :=
  if _h : adjacentDashes s = 0 then s else spread (spreadOnce s)
termination_by adjacentDashes s
decreasing_by exact adjacentDashes_spreadOnce_lt s _h

def commentChars (s : List Char) : List Char :=
  let t := spread s
  if t.getLast? = some '-' then t ++ [' '] else t

def commentText (s : String) : String := String.ofList (commentChars s.toList)

end XamlDoc.Markup.Xml
