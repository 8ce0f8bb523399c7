import XamlDoc.Text.Blank
import XamlDoc.Text.Scan
import XamlDoc.Text.Split

/-!
# Thickness

Spacing on four sides. It is written as four numbers with commas between them, and read with
blanks around each number.
-/

namespace XamlDoc

structure Thickness where
  left : UInt32
  top : UInt32
  right : UInt32
  bottom : UInt32
  deriving DecidableEq, Repr

namespace Thickness

def zero : Thickness := ⟨0, 0, 0, 0⟩

def sides (t : Thickness) : List UInt32 := [t.left, t.top, t.right, t.bottom]

def write (t : Thickness) : String := Text.join "," (t.sides.map fun n => toString n.toNat)

def word? (s : List Char) : Option UInt32 := (Text.numberBelow? UInt32.size s).map UInt32.ofNat

def words? : List (List Char) → Option (List UInt32)
  | [] => some []
  | part :: r => (word? (Text.trim part)).bind fun n => (words? r).map (n :: ·)

def readChars? (s : List Char) : Option Thickness :=
  match words? (Text.splitAt ',' s) with
  | some [left, top, right, bottom] => some ⟨left, top, right, bottom⟩
  | _ => none

def read? (s : String) : Option Thickness := readChars? s.toList

def invalidMessage (s : String) : String :=
  "invalid thickness `" ++ s ++ "`: expected four comma-separated non-negative integers"

end Thickness

end XamlDoc
