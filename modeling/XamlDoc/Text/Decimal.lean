/-!
# Decimal text of floating-point numbers

A finite number is `m · 2 ^ q`. Its text has the fewest digits that read back as the same number,
and of those the digits nearest to it; it is written positionally, without an exponent and
without a fraction that is zero. Reading goes the other way and rounds correctly.
-/

namespace XamlDoc.Text

namespace Decimal

/-! ### Numbers of digits -/

def digitCount (n : Nat) : Nat := (Nat.toDigits 10 n).length

structure Ratio where
  num : Nat
  den : Nat

/-- `m · 2 ^ q`. -/
def Ratio.scaled (m : Nat) (q : Int) : Ratio :=
  if 0 ≤ q then ⟨m * Nat.pow 2 q.toNat, 1⟩ else ⟨m, Nat.pow 2 (-q).toNat⟩

/-- The `k` with `10 ^ (k - 1) ≤ r < 10 ^ k`. -/
def Ratio.magnitude (r : Ratio) : Int :=
  if r.den ≤ r.num then digitCount (r.num / r.den)
  else 1 - (digitCount ((r.den + r.num - 1) / r.num - 1) : Int)

/-- `⌊r / 10 ^ e⌋`. -/
def Ratio.floorAt (r : Ratio) (e : Int) : Nat :=
  if 0 ≤ e then r.num / (r.den * Nat.pow 10 e.toNat) else r.num * Nat.pow 10 (-e).toNat / r.den

/-- `n · 10 ^ e`. -/
def Ratio.ofGrid (n : Nat) (e : Int) : Ratio :=
  if 0 ≤ e then ⟨n * Nat.pow 10 e.toNat, 1⟩ else ⟨n, Nat.pow 10 (-e).toNat⟩

def Ratio.le (r s : Ratio) : Bool := r.num * s.den ≤ s.num * r.den

def Ratio.lt (r s : Ratio) : Bool := r.num * s.den < s.num * r.den

/-- Twice `s` is at most `r + t`. -/
def Ratio.leMiddle (r s t : Ratio) : Bool :=
  2 * s.num * (r.den * t.den) ≤ (r.num * t.den + t.num * r.den) * s.den

/-! ### The interval of a number -/

/-- A positive finite number together with the numbers halfway to its neighbours. -/
structure Rounded where
  value : Ratio
  low : Ratio
  high : Ratio
  /-- The ends of the interval belong to it. -/
  closed : Bool

/-- The reals that round to `m · 2 ^ q`. Below a power of two the neighbour is half as far away,
except at the least exponent. -/
def Rounded.of (m : Nat) (q : Int) : Rounded where
  value := .scaled (4 * m) (q - 2)
  low := .scaled (if m == Nat.pow 2 52 && q > -1074 then 4 * m - 1 else 4 * m - 2) (q - 2)
  high := .scaled (4 * m + 2) (q - 2)
  closed := m % 2 == 0

def Rounded.contains (i : Rounded) (r : Ratio) : Bool :=
  if i.closed then i.low.le r && r.le i.high else i.low.lt r && r.lt i.high

/-- The point of the grid of multiples of `10 ^ e` that reads back as the number, the nearer one
if both neighbours do. -/
def Rounded.onGrid? (i : Rounded) (e : Int) : Option Nat :=
  let below := i.value.floorAt e
  let lower := Ratio.ofGrid below e
  let upper := Ratio.ofGrid (below + 1) e
  match i.contains lower, i.contains upper with
  | true, true => some (if Ratio.leMiddle lower i.value upper then below else below + 1)
  | true, false => some below
  | false, true => some (below + 1)
  | false, false => none

/-- Digits and exponent `e` of the first grid with a hit, from one digit to seventeen. On the
coarsest grid the upper neighbour may be ten, which is one unit of the next. -/
def Rounded.shortest (i : Rounded) : Nat × Int :=
  let k := i.value.magnitude
  let grids := (List.range 17).map fun (d : Nat) => k - 1 - (d : Int)
  let hit? := grids.findSome? fun e => (i.onGrid? e).map fun n => (n, e)
  let (n, e) := hit?.getD (i.value.floorAt (k - 17), k - 17)
  if n % 10 == 0 then (n / 10, e + 1) else (n, e)

/-! ### Writing -/

/-- `n · 10 ^ e` without an exponent. -/
def positional (n : Nat) (e : Int) : String :=
  let digits := Nat.toDigits 10 n
  if 0 ≤ e then String.ofList (digits ++ List.replicate e.toNat '0')
  else
    let places := (-e).toNat
    if digits.length ≤ places then
      "0." ++ String.ofList (List.replicate (places - digits.length) '0' ++ digits)
    else
      let whole := digits.length - places
      String.ofList (digits.take whole) ++ "." ++ String.ofList (digits.drop whole)

def ofBits (bits : UInt64) : String :=
  let negative := bits >>> 63 != 0
  let exponent := ((bits >>> 52) &&& 0x7FF).toNat
  let fraction := (bits &&& 0xFFFFFFFFFFFFF).toNat
  let sign := if negative then "-" else ""
  if exponent == 0x7FF then
    if fraction == 0 then sign ++ "inf" else "NaN"
  else if exponent == 0 && fraction == 0 then sign ++ "0"
  else
    let number :=
      if exponent == 0 then Rounded.of fraction (-1074)
      else Rounded.of (Nat.pow 2 52 + fraction) ((exponent : Int) - 1075)
    let (n, e) := number.shortest
    sign ++ positional n e

end Decimal

def decimal (x : Float) : String := Decimal.ofBits x.toBits

/-! ### Reading -/

/-- `± n · 10 ^ e` rounded to the nearest floating-point number. Far outside the range of exponents
the answer is zero or infinite, whatever the digits. -/
def float (negative : Bool) (n : Nat) (e : Int) : Float :=
  let magnitude := (Decimal.digitCount n : Int) + e
  let x : Float :=
    if n == 0 || magnitude < -400 then 0
    else if magnitude > 400 then 1 / 0
    else Float.ofScientific n (e < 0) e.natAbs
  if negative then -x else x

end XamlDoc.Text
