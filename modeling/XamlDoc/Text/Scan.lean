/-!
# Reading from the front of a text

A reader takes a piece off the front of a list of characters and hands on what follows it. Here are
the pieces that several notations have in common: digits, numbers and words.
-/

namespace XamlDoc.Text

/-- A value read from the front of a text, and what follows it. -/
abbrev Read (α : Type) := Option (α × List Char)

def hexDigit? (c : Char) : Option Nat :=
  if c.isDigit then some (c.toNat - '0'.toNat)
  else if 'a' ≤ c ∧ c ≤ 'f' then some (c.toNat - 'a'.toNat + 10)
  else if 'A' ≤ c ∧ c ≤ 'F' then some (c.toNat - 'A'.toNat + 10)
  else none

def digitsValue (base : Nat) (digits : List Char) : Nat :=
  digits.foldl (fun n c => n * base + (hexDigit? c).getD 0) 0

def decimalValue (digits : List Char) : Nat := digitsValue 10 digits

/-- The number below `bound` that the whole text writes by decimal digits, with a plus sign in front
or without. -/
def numberBelow? (bound : Nat) (s : List Char) : Option Nat :=
  let digits := match s with
    | '+' :: r => r
    | r => r
  if digits.isEmpty || !digits.all Char.isDigit then none
  else if decimalValue digits < bound then some (decimalValue digits) else none

def after? : List Char → List Char → Option (List Char)
  | [], s => some s
  | w :: ws, c :: s => if c == w then after? ws s else none
  | _ :: _, [] => none

end XamlDoc.Text
