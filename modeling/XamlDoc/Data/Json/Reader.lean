import XamlDoc.Data.Basic
import XamlDoc.Text.Decimal
import XamlDoc.Text.Scan

/-!
# Reading JSON

Strict JSON: one value, with blanks around it, and nothing else. Text that has the form of a value but
cannot be one is read as unreadable: a string with half of a surrogate pair, a number too large,
and lists and records nested too deeply.
-/

namespace XamlDoc.Data.Json

open Text (Read after? decimalValue hexDigit?)

def isBlank (c : Char) : Bool := c == ' ' || c == '\n' || c == '\t' || c == '\r'

def skipBlank (s : List Char) : List Char := s.dropWhile isBlank

def depthLimit : Nat := 127

/-! ### Strings -/

def unit? (a b c d : Char) : Option Nat := do
  return (((← hexDigit? a) * 16 + (← hexDigit? b)) * 16 + (← hexDigit? c)) * 16 + (← hexDigit? d)

def isLead (n : Nat) : Bool := 0xD800 ≤ n && n < 0xDC00

def isTrail (n : Nat) : Bool := 0xDC00 ≤ n && n < 0xE000

def pairChar (lead trail : Nat) : Char :=
  Char.ofNat (0x10000 + (lead - 0xD800) * 1024 + (trail - 0xDC00))

def escape? : Char → Option Char
  | '"' => some '"'
  | '\\' => some '\\'
  | '/' => some '/'
  | 'b' => some '\x08'
  | 'f' => some '\x0c'
  | 'n' => some '\n'
  | 'r' => some '\r'
  | 't' => some '\t'
  | _ => none

/-- The rest of a string after its opening quote. `read` is what has been read, backwards, or
`none` once it cannot be a text any more. -/
def stringRest : List Char → Option (List Char) → Read (Option String)
  | [], _ => none
  | '"' :: r, read => some (read.map fun cs => String.ofList cs.reverse, r)
  | '\\' :: 'u' :: a :: b :: c :: d :: '\\' :: 'u' :: e :: f :: g :: h :: r, read =>
    match unit? a b c d with
    | none => none
    | some m =>
      if isLead m then
        match unit? e f g h with
        | none => none
        | some n => stringRest r (if isTrail n then read.map (pairChar m n :: ·) else none)
      else
        stringRest ('\\' :: 'u' :: e :: f :: g :: h :: r)
          (if isTrail m then none else read.map (Char.ofNat m :: ·))
  | '\\' :: 'u' :: a :: b :: c :: d :: r, read =>
    match unit? a b c d with
    | none => none
    | some m => stringRest r (if isLead m || isTrail m then none else read.map (Char.ofNat m :: ·))
  | '\\' :: c :: r, read =>
    match escape? c with
    | none => none
    | some c => stringRest r (read.map (c :: ·))
  | c :: r, read => if c.toNat < 0x20 || c == '\\' then none else stringRest r (read.map (c :: ·))

/-! ### Numbers -/

/-- A fraction: a point and at least one digit. -/
def fraction : List Char → Read (List Char)
  | '.' :: r =>
    match r.span Char.isDigit with
    | ([], _) => none
    | (digits, rest) => some (digits, rest)
  | s => some ([], s)

def exponentDigits (s : List Char) : Read Nat :=
  match s.span Char.isDigit with
  | ([], _) => none
  | (digits, rest) => some (decimalValue digits, rest)

def exponent : List Char → Read (Option Int)
  | c :: r =>
    if c == 'e' || c == 'E' then
      match r with
      | '-' :: r => (exponentDigits r).map fun (n, rest) => (some (-(n : Int)), rest)
      | '+' :: r => (exponentDigits r).map fun (n, rest) => (some (n : Int), rest)
      | r => (exponentDigits r).map fun (n, rest) => (some (n : Int), rest)
    else some (none, c :: r)
  | [] => some (none, [])

/-- A number without a fraction and an exponent is an integer if it fits into 64 bits. -/
def numberValue (negative : Bool) (whole fraction : List Char) (exponent? : Option Int) : Data :=
  let n : Int := decimalValue whole
  let signed := if negative then -n else n
  if fraction.isEmpty && exponent?.isNone && !(negative && n == 0) && Int64.minValue.toInt ≤ signed
      && signed < UInt64.size then
    .integer signed
  else
    let x := Text.float negative (decimalValue (whole ++ fraction))
      (exponent?.getD 0 - fraction.length)
    if x.isInf then .unreadable else .float x

def number (negative : Bool) (s : List Char) : Read Data :=
  match s.span Char.isDigit with
  | ([], _) => none
  | (whole, r) =>
    if whole.length > 1 && whole.head? == some '0' then none
    else
      (fraction r).bind fun (digits, r) =>
        (exponent r).map fun (exponent?, r) => (numberValue negative whole digits exponent?, r)

/-! ### Values -/

mutual

/-- A value inside `depth` lists and records. Each step takes one of `fuel`. -/
def value : Nat → Nat → List Char → Read Data
  | 0, _, _ => none
  | fuel + 1, depth, s =>
    match skipBlank s with
    | [] => none
    | '"' :: r =>
      (stringRest r (some [])).map fun (text?, r) =>
        (match text? with | some t => .string t | none => .unreadable, r)
    | '[' :: r =>
      (match skipBlank r with
        | ']' :: r => some ([], r)
        | r => itemsRest fuel (depth + 1) r).map fun (ds, r) =>
          (if depth < depthLimit then .list ds else .unreadable, r)
    | '\x7b' :: r =>
      (match skipBlank r with
        | '\x7d' :: r => some (some [], r)
        | r => fieldsRest fuel (depth + 1) r).map fun (fs?, r) =>
          (match fs? with
            | some fs => if depth < depthLimit then .record fs else .unreadable
            | none => .unreadable, r)
    | '-' :: r => number true r
    | c :: r =>
      if c.isDigit then number false (c :: r)
      else if c == 'n' then (after? "ull".toList r).map fun r => (.null, r)
      else if c == 't' then (after? "rue".toList r).map fun r => (.boolean true, r)
      else if c == 'f' then (after? "alse".toList r).map fun r => (.boolean false, r)
      else none

def itemsRest : Nat → Nat → List Char → Read (List Data)
  | 0, _, _ => none
  | fuel + 1, depth, s =>
    (value fuel depth s).bind fun (d, r) =>
      match skipBlank r with
      | ']' :: r => some ([d], r)
      | ',' :: r => (itemsRest fuel depth r).map fun (ds, r) => (d :: ds, r)
      | _ => none

/-- At least one field and the end of the record; no record if a name is unreadable. -/
def fieldsRest : Nat → Nat → List Char → Read (Option (List (String × Data)))
  | 0, _, _ => none
  | fuel + 1, depth, s =>
    match skipBlank s with
    | '"' :: r =>
      (stringRest r (some [])).bind fun (name?, r) =>
        match skipBlank r with
        | ':' :: r =>
          (value fuel depth r).bind fun (d, r) =>
            let field? := name?.map fun name => (name, d)
            match skipBlank r with
            | '\x7d' :: r => some (field?.map ([·]), r)
            | ',' :: r =>
              (fieldsRest fuel depth r).map fun (fs?, r) =>
                (field?.bind fun f => fs?.map (f :: ·), r)
            | _ => none
        | _ => none
    | _ => none

end

/-- The value that the whole text stands for. Every two steps of reading take a character, so the
fuel is enough. -/
def read? (text : String) : Option Data :=
  let s := text.toList
  match value (2 * s.length + 2) 0 s with
  | some (d, r) => if (skipBlank r).isEmpty then some d else none
  | none => none

end XamlDoc.Data.Json
