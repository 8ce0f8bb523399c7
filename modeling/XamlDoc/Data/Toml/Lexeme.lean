import XamlDoc.Text.Scan

/-!
# Words of TOML

Blanks, line ends and comments, the four kinds of strings, and keys. Control characters stand nowhere,
except the tab; in strings they are written by escapes.
-/

namespace XamlDoc.Data.Toml

open Text (Read digitsValue hexDigit?)

def isBlank (c : Char) : Bool := c == ' ' || c == '\t'

def skipBlank (s : List Char) : List Char := s.dropWhile isBlank

def isPlain (c : Char) : Bool := c == '\t' || (0x20 ≤ c.toNat && c.toNat != 0x7F)

/-! ### Lines -/

def lineBreak? : List Char → Option (List Char)
  | '\n' :: r => some r
  | '\r' :: '\n' :: r => some r
  | _ => none

def skipComment : List Char → List Char
  | '#' :: r => r.dropWhile isPlain
  | s => s

/-- The text after the rest of a line that holds nothing but a comment. -/
def endLine? (s : List Char) : Option (List Char) :=
  match skipComment (skipBlank s) with
  | [] => some []
  | r => lineBreak? r

def skipSpace (inComment : Bool) : List Char → List Char
  | [] => []
  | '\r' :: '\n' :: r => skipSpace false r
  | c :: r =>
    if c == '\n' then skipSpace false r
    else if inComment then
      if isPlain c then skipSpace true r else c :: r
    else if c == '#' then skipSpace true r
    else if isBlank c then skipSpace false r
    else c :: r

/-! ### Strings -/

def escape? : Char → Option Char
  | 'b' => some '\x08'
  | 't' => some '\t'
  | 'n' => some '\n'
  | 'f' => some '\x0c'
  | 'r' => some '\r'
  | '"' => some '"'
  | '\\' => some '\\'
  | _ => none

def scalar? (digits : List Char) : Option Char :=
  let n := digitsValue 16 digits
  if digits.all (fun c => (hexDigit? c).isSome) && n.isValidChar then some (Char.ofNat n) else none

/-- The rest of a string on one line, after the opening quote. What has been read is `read`,
backwards. -/
def quotedRest (read : List Char) : List Char → Read String
  | [] => none
  | '"' :: r => some (String.ofList read.reverse, r)
  | '\\' :: 'u' :: a :: b :: c :: d :: r =>
    (scalar? [a, b, c, d]).bind fun x => quotedRest (x :: read) r
  | '\\' :: 'U' :: a :: b :: c :: d :: e :: f :: g :: h :: r =>
    (scalar? [a, b, c, d, e, f, g, h]).bind fun x => quotedRest (x :: read) r
  | '\\' :: c :: r => (escape? c).bind fun x => quotedRest (x :: read) r
  | c :: r => if isPlain c && c != '\\' then quotedRest (c :: read) r else none

/-- The end of a string on several lines: up to two quotes before the closing ones belong to the
string. -/
def closing (quote : Char) (read rest : List Char) : String × List Char :=
  match rest with
  | c :: d :: r =>
    if c == quote && d == quote then (String.ofList (quote :: quote :: read).reverse, r)
    else if c == quote then (String.ofList (quote :: read).reverse, d :: r)
    else (String.ofList read.reverse, rest)
  | [c] =>
    if c == quote then (String.ofList (quote :: read).reverse, [])
    else (String.ofList read.reverse, rest)
  | [] => (String.ofList read.reverse, [])

/-- The rest of a string on several lines. A backslash at the end of a line makes the reader pass
over blanks and line breaks; then `passing` is true. -/
def linesRest (passing : Bool) (read : List Char) : List Char → Read String
  | [] => none
  | '"' :: '"' :: '"' :: r => some (closing '"' read r)
  | '\r' :: '\n' :: r => linesRest passing (if passing then read else '\n' :: read) r
  | '\\' :: 'u' :: a :: b :: c :: d :: r =>
    (scalar? [a, b, c, d]).bind fun x => linesRest false (x :: read) r
  | '\\' :: 'U' :: a :: b :: c :: d :: e :: f :: g :: h :: r =>
    (scalar? [a, b, c, d, e, f, g, h]).bind fun x => linesRest false (x :: read) r
  | '\\' :: c :: r =>
    match escape? c with
    | some x => linesRest false (x :: read) r
    | none => if (lineBreak? (skipBlank (c :: r))).isSome then linesRest true read (c :: r) else none
  | c :: r =>
    if c == '\n' then linesRest passing (if passing then read else '\n' :: read) r
    else if passing && isBlank c then linesRest true read r
    else if isPlain c && c != '\\' then linesRest false (c :: read) r
    else none

def literalRest (s : List Char) : Read String :=
  match s.span fun c => isPlain c && c != '\'' with
  | (read, '\'' :: r) => some (String.ofList read, r)
  | _ => none

def literalLinesRest (read : List Char) : List Char → Read String
  | [] => none
  | '\'' :: '\'' :: '\'' :: r => some (closing '\'' read r)
  | '\r' :: '\n' :: r => literalLinesRest ('\n' :: read) r
  | c :: r => if isPlain c || c == '\n' then literalLinesRest (c :: read) r else none

/-- A string of any kind. A line break right after three opening quotes does not belong to it. -/
def string : List Char → Read String
  | '"' :: '"' :: '"' :: r => linesRest false [] ((lineBreak? r).getD r)
  | '"' :: r => quotedRest [] r
  | '\'' :: '\'' :: '\'' :: r => literalLinesRest [] ((lineBreak? r).getD r)
  | '\'' :: r => literalRest r
  | _ => none

/-! ### Keys -/

structure Key where
  path : List String
  name : String

def isBare (c : Char) : Bool := c.isAlphanum || c == '_' || c == '-'

def name : List Char → Read String
  | '"' :: r => quotedRest [] r
  | '\'' :: r => literalRest r
  | s =>
    match s.span isBare with
    | ([], _) => none
    | (cs, r) => some (String.ofList cs, r)

/-- Names with points between them, of which there are at most `fuel`, and the blanks after them. -/
def keyRest : Nat → List Char → Read Key
  | 0, _ => none
  | fuel + 1, s =>
    (name s).bind fun (first, r) =>
      match skipBlank r with
      | '.' :: r => (keyRest fuel (skipBlank r)).map fun (key, r) => (⟨first :: key.path, key.name⟩, r)
      | r => some (⟨[], first⟩, r)

def key (s : List Char) : Read Key := keyRest s.length s

end XamlDoc.Data.Toml
