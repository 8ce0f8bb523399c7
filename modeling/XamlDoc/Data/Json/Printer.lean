import XamlDoc.Data.Basic
import XamlDoc.Text.Decimal

/-!
# Writing JSON

Data as JSON on one line. Line breaks of every kind are written as escapes.
-/

namespace XamlDoc.Data.Json

def hexDigit (n : Nat) : Char := ("0123456789abcdef".toList).getD (n % 16) '0'

def unitEscape (n : Nat) : List Char :=
  ['\\', 'u', hexDigit (n / 4096), hexDigit (n / 256), hexDigit (n / 16), hexDigit n]

def printChar (c : Char) : List Char :=
  if c == '"' then ['\\', '"']
  else if c == '\\' then ['\\', '\\']
  else
    let n := c.toNat
    if n < 0x20 || n == 0x85 || n == 0x2028 || n == 0x2029 then unitEscape n else [c]

def printString (s : String) : String :=
  "\"" ++ String.ofList (s.toList.flatMap printChar) ++ "\""

mutual

def print : Data → String
  | .null | .unreadable => "null"
  | .boolean b => if b then "true" else "false"
  | .integer n => toString n
  | .float x => if x.isFinite then Text.decimal x else "null"
  | .string s => printString s
  | .list items => "[" ++ printItems "" items ++ "]"
  | .record fields => "\x7b" ++ printFields "" fields ++ "\x7d"

def printItems (sep : String) : List Data → String
  | [] => ""
  | d :: r => sep ++ print d ++ printItems "," r

def printFields (sep : String) : List (String × Data) → String
  | [] => ""
  | (k, d) :: r => sep ++ printString k ++ ":" ++ print d ++ printFields "," r

end

end XamlDoc.Data.Json
