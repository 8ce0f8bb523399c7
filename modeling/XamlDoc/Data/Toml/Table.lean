import XamlDoc.Data.Basic
import XamlDoc.Data.Toml.Lexeme

/-!
# Tables under construction

The statements of a TOML text add to nested tables, and no name gets a value twice. How a table came
to be decides what may be added to it: a header declares a table once, dotted keys add only to tables
that dotted keys made, and a written value is complete.
-/

namespace XamlDoc.Data.Toml

inductive Origin where
  /-- It has a header of its own, or is the whole text. -/
  | declared
  /-- The header of a table inside it names it. -/
  | passed
  /-- A dotted key names it. -/
  | dotted
  deriving DecidableEq

inductive Item where
  | value (d : Data)
  | table (origin : Origin) (entries : List (String × Item))
  /-- Tables that are declared one by one; the last one is added to. -/
  | tables (elements : List (List (String × Item)))

abbrev Entries := List (String × Item)

namespace Item

mutual

def toData : Item → Data
  | .value d => d
  | .table _ entries => .record (fieldsOf entries)
  | .tables elements => .list (recordsOf elements)

def fieldsOf : Entries → List (String × Data)
  | [] => []
  | (k, item) :: r => (k, toData item) :: fieldsOf r

def recordsOf : List Entries → List Data
  | [] => []
  | entries :: r => .record (fieldsOf entries) :: recordsOf r

end

end Item

/-- Put at `key` what `change` makes of the item there, unless it refuses. -/
def Entries.alter (key : String) (change : Option Item → Option Item) : Entries → Option Entries
  | [] => (change none).map fun item => [(key, item)]
  | (k, item) :: r =>
    if k = key then (change (some item)).map fun item => (k, item) :: r
    else (Entries.alter key change r).map ((k, item) :: ·)

def changeLast {α : Type} (change : α → Option α) : List α → Option (List α)
  | [] => none
  | [a] => (change a).map ([·])
  | a :: b :: r => (changeLast change (b :: r)).map (a :: ·)

/-- Change the table at the end of a path. Tables that are not there are made, by a dotted key or in
passing. -/
def within (byDottedKey : Bool) (change : Origin → Entries → Option Entries) :
    List String → Origin → Entries → Option Entries
  | [], origin, entries => change origin entries
  | name :: path, _, entries =>
    Entries.alter name (fun
      | none =>
        let origin := if byDottedKey then .dotted else .passed
        (within byDottedKey change path origin []).map (.table origin)
      | some (.table origin inner) =>
        if byDottedKey && origin = .declared then none
        else (within byDottedKey change path origin inner).map (.table origin)
      | some (.tables elements) =>
        (changeLast (within byDottedKey change path .declared) elements).map .tables
      | some (.value _) => none) entries

def Entries.assign (key : Key) (d : Data) (entries : Entries) : Option Entries :=
  within true (fun origin inner =>
    if !key.path.isEmpty && origin ≠ .dotted then none
    else Entries.alter key.name (fun item? => if item?.isSome then none else some (.value d)) inner)
    key.path .declared entries

def Entries.declare (key : Key) (entries : Entries) : Option Entries :=
  within false (fun _ inner => Entries.alter key.name (fun
    | none => some (.table .declared [])
    | some (.table .passed inner) => some (.table .declared inner)
    | some _ => none) inner) key.path .declared entries

def Entries.declareElement (key : Key) (entries : Entries) : Option Entries :=
  within false (fun _ inner => Entries.alter key.name (fun
    | none => some (.tables [[]])
    | some (.tables elements) => some (.tables (elements ++ [[]]))
    | some _ => none) inner) key.path .declared entries

/-! ### Statements -/

inductive Statement where
  | assign (key : Key) (d : Data)
  /-- A header: what follows belongs to this table. -/
  | declare (key : Key)
  /-- A header of a list of tables: what follows belongs to a new element. -/
  | declareElement (key : Key)

/-- Tables made so far, and the path to the one that is added to. -/
structure Tables where
  entries : Entries
  current : List String

namespace Tables

def empty : Tables := ⟨[], []⟩

def add (t : Tables) : Statement → Option Tables
  | .assign key d =>
    (within false (fun _ inner => Entries.assign key d inner) t.current .declared t.entries).map
      fun entries => { t with entries }
  | .declare key => (Entries.declare key t.entries).map fun entries => ⟨entries, key.path ++ [key.name]⟩
  | .declareElement key =>
    (Entries.declareElement key t.entries).map fun entries => ⟨entries, key.path ++ [key.name]⟩

def addAll (t : Tables) : List Statement → Option Tables
  | [] => some t
  | s :: r => (t.add s).bind fun t => t.addAll r

def toData (t : Tables) : Data := .record (Item.fieldsOf t.entries)

end Tables

end XamlDoc.Data.Toml
