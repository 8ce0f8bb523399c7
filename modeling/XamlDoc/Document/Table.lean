import XamlDoc.Document.Alignment
import XamlDoc.Memory

/-!
# Tables

Cells, rows and tables over a type `ν` of content, and the placement of a row on a grid of columns.
An absent entry of a row extends the cell to its left.
-/

namespace XamlDoc

structure Cell (ν : Type) where
  content : ν
  /-- Overrides the alignment of the column. -/
  alignment : Option Alignment

abbrev Row (ν : Type) := List (Option (Cell ν))

structure Table (ν : Type) where
  columns : UInt64
  columnAlignments : List Alignment
  headers : List (List (Option (Cell ν)))
  rows : List (List (Option (Cell ν)))
  caption : Option String
  id : Option String

namespace Table

variable {ν : Type}

def ofColumns (columns : UInt64) : Table ν := ⟨columns, [], [], [], none, none⟩

/-- Alignment of a column; left where none is given. -/
def columnAlignment (t : Table ν) (column : Nat) : Alignment :=
  (t.columnAlignments[column]?).getD .left

def allRows (t : Table ν) : List (Row ν) := t.headers ++ t.rows

end Table

/-! ### Placement -/

structure Placement (ν : Type) where
  column : Nat
  /-- Number of columns covered, at least one. -/
  span : Nat
  /-- Absent past the end of a short row. -/
  cell? : Option (Cell ν)

namespace Row

variable {ν : Type}

/-- The length of the run of absent entries that a row begins with. -/
def gap : Row ν → Nat
  | none :: r => gap r + 1
  | _ => 0

/-- Placements of the entries from `column` on, on the next `room` columns. An absent entry is covered
by the cell to its left, or stays uncovered if there is none; either way it has no placement. -/
def placeFrom : Nat → Nat → Row ν → List (Placement ν)
  | _, 0, _ => []
  | column, room + 1, [] => ⟨column, 1, none⟩ :: placeFrom (column + 1) room []
  | column, room + 1, none :: r => placeFrom (column + 1) room r
  | column, room + 1, some cell :: r =>
    ⟨column, min (gap r) room + 1, some cell⟩ :: placeFrom (column + 1) room r

/-- Placements of a row on a grid of `columns` columns. Entries past the last column are left out,
and a short row is filled up with empty cells. -/
def place (columns : Nat) (row : Row ν) : List (Placement ν) := placeFrom 0 columns row

/-- The placements of a row, if as many as there are columns fit into the memory, at 24 bytes each. -/
def columnSpans? [Memory] (columns : Nat) (row : Row ν) : Option (List (Placement ν)) :=
  if Memory.fits (24 * columns) then some (row.place columns) else none

end Row

end XamlDoc
