import XamlDoc.Data.Toml.Scalar
import XamlDoc.Data.Toml.Table

/-!
# Reading TOML

Version 1.0 of the format: a text is a list of statements, one on a line, and stands for the record
that they make.
-/

namespace XamlDoc.Data.Toml

open Text (Read after?)

def depthLimit : Nat := 80

/-! ### Values -/

mutual

/-- A value with at most `depth` levels of nesting. Each step takes one of `fuel`. -/
def value : Nat → Nat → List Char → Read Data
  | 0, _, _ => none
  | fuel + 1, depth, s =>
    match s with
    | [] => none
    | '[' :: r =>
      match depth with
      | 0 => none
      | depth + 1 => (items fuel depth (skipSpace false r)).map fun (ds, r) => (.list ds, r)
    | '\x7b' :: r =>
      match depth with
      | 0 => none
      | depth + 1 =>
        (match skipBlank r with
          | '\x7d' :: r => some ([], r)
          | r => fields fuel depth [] r).map fun (entries, r) => (.record (Item.fieldsOf entries), r)
    | c :: r =>
      if c == '"' || c == '\'' then (string (c :: r)).map fun (t, r) => (.string t, r)
      else word (c :: r)

def items : Nat → Nat → List Char → Read (List Data)
  | 0, _, _ => none
  | _ + 1, _, ']' :: r => some ([], r)
  | fuel + 1, depth, s =>
    (value fuel depth s).bind fun (d, r) =>
      match skipSpace false r with
      | ']' :: r => some ([d], r)
      | ',' :: r => (items fuel depth (skipSpace false r)).map fun (ds, r) => (d :: ds, r)
      | _ => none

def fields : Nat → Nat → Entries → List Char → Read Entries
  | 0, _, _, _ => none
  | fuel + 1, depth, entries, s =>
    (key s).bind fun (key, r) =>
      (after? ['='] r).bind fun r =>
        (value fuel depth (skipBlank r)).bind fun (d, r) =>
          (Entries.assign key d entries).bind fun entries =>
            match skipBlank r with
            | '\x7d' :: r => some (entries, r)
            | ',' :: r => fields fuel depth entries (skipBlank r)
            | _ => none

end

/-! ### Statements -/

def statement : List Char → Read Statement
  | '[' :: '[' :: r =>
    (key (skipBlank r)).bind fun (key, r) =>
      (after? [']', ']'] r).map fun r => (.declareElement key, r)
  | '[' :: r =>
    (key (skipBlank r)).bind fun (key, r) => (after? [']'] r).map fun r => (.declare key, r)
  | s =>
    (key s).bind fun (key, r) =>
      (after? ['='] r).bind fun r =>
        (value (2 * r.length + 2) depthLimit (skipBlank r)).map fun (d, r) => (.assign key d, r)

def statements : Nat → List Char → Option (List Statement)
  | 0, _ => none
  | fuel + 1, s =>
    match skipBlank s with
    | [] => some []
    | s =>
      match endLine? s with
      | some r => statements fuel r
      | none =>
        (statement s).bind fun (first, r) =>
          (endLine? r).bind fun r => (statements fuel r).map (first :: ·)

/-- The record that a text stands for. A byte order mark in front is passed over. -/
def read? (text : String) : Option Data :=
  let s := match text.toList with
    | '\uFEFF' :: r => r
    | s => s
  (statements (s.length + 1) s).bind fun list => (Tables.empty.addAll list).map Tables.toData

end XamlDoc.Data.Toml
