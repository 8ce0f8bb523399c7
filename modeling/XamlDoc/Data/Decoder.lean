import XamlDoc.Data.Basic
import XamlDoc.Text.Decimal

/-!
# Reading values out of data

A decoder accepts some data and says what they stand for. Records are read by the names of their
fields: unknown fields are ignored, a known field that is there twice is refused, and a record may
also be written as the list of its fields in order.
-/

namespace XamlDoc

/-- What a piece of data stands for, if it is accepted. -/
abbrev Decoder (α : Type) := Data → Option α

namespace Decoder

variable {α : Type}

def string : Decoder String
  | .string s => some s
  | _ => none

def boolean : Decoder Bool
  | .boolean b => some b
  | _ => none

def integer (low high : Int) : Decoder Int
  | .integer n => if low ≤ n ∧ n ≤ high then some n else none
  | _ => none

def byte : Decoder UInt8 := fun d => (integer 0 255 d).map fun n => UInt8.ofNat n.toNat

def word32 : Decoder UInt32 := fun d => (integer 0 (UInt32.size - 1) d).map fun n => UInt32.ofNat n.toNat

def word64 : Decoder UInt64 := fun d => (integer 0 (UInt64.size - 1) d).map fun n => UInt64.ofNat n.toNat

def natural : Decoder Nat := fun d => (integer 0 (UInt64.size - 1) d).map Int.toNat

def signed32 : Decoder Int := integer Int32.minValue.toInt Int32.maxValue.toInt

def float : Decoder Float
  | .float x => some x
  | .integer n => if Int64.minValue.toInt ≤ n ∧ n < UInt64.size then some (Text.float (n < 0) n.natAbs 0) else none
  | _ => none

def nullable (value : Decoder α) : Decoder (Option α)
  | .null => some none
  | d => (value d).map some

def items (item : Decoder α) : List Data → Option (List α)
  | [] => some []
  | d :: r => (item d).bind fun a => (items item r).map fun as => a :: as

def list (item : Decoder α) : Decoder (List α)
  | .list ds => items item ds
  | _ => none

def entries (value : Decoder α) : List (String × Data) → Option (List (String × α))
  | [] => some []
  | (k, d) :: r => (value d).bind fun a => (entries value r).map fun as => (k, a) :: as

def mapping (value : Decoder α) : Decoder (List (String × α))
  | .record fields => entries value fields
  | _ => none

/-- One of the named values; the name may also stand as the only field of a record, with
nothing in it. -/
def choice (values : List (String × α)) : Decoder α
  | .string s => values.lookup s
  | .record [(s, .null)] => values.lookup s
  | _ => none

end Decoder

abbrev Fields := List (String × Data)

namespace Fields

variable {α : Type}

/-- No two of the fields have the same one of the given names. -/
def once (names : List String) (fields : List (String × Data)) : Bool :=
  names.all fun name => (fields.filter fun f => f.1 == name).length ≤ 1

def of? (names : List String) : Data → Option Fields
  | .record fields => if once names fields then some fields else none
  | .list items => if items.length ≤ names.length then some (names.zip items) else none
  | _ => none

/-- The same for a notation in which a list may go on after the fields. -/
def ofLeading? (names : List String) : Data → Option Fields
  | .list items => some (names.zip items)
  | d => of? names d

def required (f : Fields) (name : String) (value : Decoder α) : Option α :=
  (f.lookup name).bind value

def withDefault (f : Fields) (name : String) (default : α) (value : Decoder α) : Option α :=
  match f.lookup name with
  | none => some default
  | some d => value d

def optional (f : Fields) (name : String) (value : Decoder α) : Option (Option α) :=
  f.withDefault name none (Decoder.nullable value)

end Fields

end XamlDoc
