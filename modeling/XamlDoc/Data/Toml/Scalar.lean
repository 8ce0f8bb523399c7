import XamlDoc.Data.Basic
import XamlDoc.Data.Toml.Lexeme
import XamlDoc.Text.Decimal

/-!
# Numbers, dates and truth values of TOML

Numbers may have an underscore between two digits. Dates and times are checked against the calendar
and kept as they are written.
-/

namespace XamlDoc.Data.Toml

open Text (Read after? decimalValue digitsValue hexDigit?)

/-! ### Numbers -/

/-- The digits that follow a digit, each with an underscore before it or without. -/
def moreDigits (isDigit : Char → Bool) : List Char → List Char × List Char
  | [] => ([], [])
  | '_' :: c :: r =>
    if isDigit c then
      let (ds, rest) := moreDigits isDigit r
      (c :: ds, rest)
    else ([], '_' :: c :: r)
  | c :: r =>
    if isDigit c then
      let (ds, rest) := moreDigits isDigit r
      (c :: ds, rest)
    else ([], c :: r)

def digits (isDigit : Char → Bool) : List Char → Read (List Char)
  | [] => none
  | c :: r =>
    if isDigit c then
      let (ds, rest) := moreDigits isDigit r
      some (c :: ds, rest)
    else none

def integer? (n : Int) : Option Data :=
  if -(Nat.pow 2 127 : Int) ≤ n ∧ n < Nat.pow 2 128 then some (.integer n) else none

def based (base : Nat) (s : List Char) : Read Data :=
  (digits (fun c => (hexDigit? c).any (· < base)) s).bind fun (ds, r) =>
    (integer? (digitsValue base ds)).map fun d => (d, r)

def fraction : List Char → Read (Option (List Char))
  | '.' :: r => (digits Char.isDigit r).map fun (ds, r) => (some ds, r)
  | s => some (none, s)

def exponentRest (negative : Bool) (s : List Char) : Read (Option Int) :=
  (digits Char.isDigit s).map fun (ds, r) =>
    let n : Int := decimalValue ds
    (some (if negative then -n else n), r)

def exponent : List Char → Read (Option Int)
  | c :: r =>
    if c == 'e' || c == 'E' then
      match r with
      | '-' :: r => exponentRest true r
      | '+' :: r => exponentRest false r
      | r => exponentRest false r
    else some (none, c :: r)
  | [] => some (none, [])

/-- The value of a decimal number. A number that is too large for a float has none. -/
def numberValue? (negative : Bool) (whole : List Char) (fraction? : Option (List Char))
    (exponent? : Option Int) : Option Data :=
  if fraction?.isNone && exponent?.isNone then
    let n : Int := decimalValue whole
    integer? (if negative then -n else n)
  else
    let places := fraction?.getD []
    let x := Text.float negative (decimalValue (whole ++ places))
      (exponent?.getD 0 - places.length)
    if x.isInf then none else some (.float x)

/-- A decimal number after its sign. Only zero itself begins with a zero. -/
def unsigned (negative : Bool) (s : List Char) : Read Data :=
  match after? "inf".toList s, after? "nan".toList s with
  | some r, _ => some (.float (if negative then -1 / 0 else 1 / 0), r)
  | _, some r => some (.float (0 / 0), r)
  | none, none =>
    (digits Char.isDigit s).bind fun (whole, r) =>
      if whole.length > 1 && whole.head? == some '0' then none
      else
        (fraction r).bind fun (fraction?, r) =>
          (exponent r).bind fun (exponent?, r) =>
            (numberValue? negative whole fraction? exponent?).map fun d => (d, r)

def number : List Char → Read Data
  | '0' :: 'x' :: r => based 16 r
  | '0' :: 'o' :: r => based 8 r
  | '0' :: 'b' :: r => based 2 r
  | '+' :: r => unsigned false r
  | '-' :: r => unsigned true r
  | s => unsigned false s

/-! ### Dates and times -/

def field (n low high : Nat) (s : List Char) : Read Nat :=
  let ds := s.take n
  let value := decimalValue ds
  if ds.length == n && ds.all Char.isDigit && low ≤ value && value ≤ high then
    some (value, s.drop n)
  else none

def isLeapYear (year : Nat) : Bool := (year % 4 == 0 && year % 100 != 0) || year % 400 == 0

def daysIn (year month : Nat) : Nat :=
  if month == 2 then if isLeapYear year then 29 else 28
  else if month == 4 || month == 6 || month == 9 || month == 11 then 30
  else 31

def date? (s : List Char) : Option (List Char) := do
  let (year, r) ← field 4 0 9999 s
  let (month, r) ← field 2 1 12 (← after? ['-'] r)
  let (_, r) ← field 2 1 (daysIn year month) (← after? ['-'] r)
  return r

/-- The text after a time of day. Its seconds may have a fraction, and there are leap seconds. -/
def time? (s : List Char) : Option (List Char) := do
  let (_, r) ← field 2 0 23 s
  let (_, r) ← field 2 0 59 (← after? [':'] r)
  let (_, r) ← field 2 0 60 (← after? [':'] r)
  match r with
  | '.' :: r =>
    match r.span Char.isDigit with
    | ([], _) => none
    | (_, r) => return r
  | r => return r

def offset? : List Char → Option (List Char)
  | [] => none
  | c :: r =>
    if c == 'Z' || c == 'z' then some r
    else if c == '+' || c == '-' then do
      let (_, r) ← field 2 0 23 r
      let (_, r) ← field 2 0 59 (← after? [':'] r)
      return r
    else none

/-- The text after a time of day that follows a date, with a zone or without. A blank in front of it
counts only if a digit follows. -/
def timeAfterDate? (s : List Char) : Option (List Char) :=
  let zoned (r : List Char) : Option (List Char) := (time? r).map fun r => (offset? r).getD r
  match s with
  | ' ' :: c :: r => if c.isDigit then zoned (c :: r) else some s
  | c :: r => if c == 'T' || c == 't' then zoned r else some s
  | [] => some []

def moment? (s : List Char) : Option (List Char) :=
  match date? s with
  | some r => timeAfterDate? r
  | none => time? s

/-! ### Scalars -/

def word (s : List Char) : Read Data :=
  match moment? s, after? "true".toList s, after? "false".toList s with
  | some r, _, _ =>
    some (.record [("date-time", .string (String.ofList (s.take (s.length - r.length))))], r)
  | _, some r, _ => some (.boolean true, r)
  | _, _, some r => some (.boolean false, r)
  | none, none, none => number s

end XamlDoc.Data.Toml
