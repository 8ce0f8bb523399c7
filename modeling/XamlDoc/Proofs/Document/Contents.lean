import XamlDoc.Document.Node

/-!
# Contents of tables and definitions

Tables, rows and definition groups whose contents are replaced one by one. Replacing contents and
placing cells on the grid can be done in either order. The placements of a row lie on the columns of the grid from
left to right, and none reaches into the next.
-/

namespace XamlDoc

variable {ν μ : Type}

/-! ### Replacing contents -/

def Cell.map (f : ν → μ) (c : Cell ν) : Cell μ := ⟨f c.content, c.alignment⟩

def Row.map (f : ν → μ) (row : Row ν) : Row μ := List.map (Option.map (Cell.map f)) row

def Placement.map (f : ν → μ) (p : Placement ν) : Placement μ :=
  ⟨p.column, p.span, p.cell?.map (Cell.map f)⟩

def Table.map (f : ν → μ) (t : Table ν) : Table μ :=
  ⟨t.columns, t.columnAlignments, t.headers.map (Row.map f), t.rows.map (Row.map f), t.caption, t.id⟩

def DefinitionGroup.map (f : ν → μ) (g : DefinitionGroup ν) : DefinitionGroup μ :=
  ⟨g.terms.map f, g.descriptions.map f⟩

def NumberedItem.map (f : ν → μ) (i : NumberedItem ν) : NumberedItem μ := ⟨i.number, f i.child⟩

def TaskItem.map (f : ν → μ) (i : TaskItem ν) : TaskItem μ := ⟨i.checked, f i.child⟩

theorem Table.allRows_map (f : ν → μ) (t : Table ν) :
    (t.map f).allRows = t.allRows.map (Row.map f) := (List.map_append ..).symm

/-! ### Placed contents -/

namespace Row

theorem gap_map (f : ν → μ) (row : Row ν) : (row.map f).gap = row.gap := by
  induction row with
  | nil => rfl
  | cons cell? r ih =>
    cases cell? with
    | none => exact congrArg (· + 1) ih
    | some cell => rfl

theorem placeFrom_map (f : ν → μ) (column room : Nat) (row : Row ν) :
    (row.map f).placeFrom column room = (row.placeFrom column room).map (Placement.map f) := by
  induction room generalizing column row with
  | zero => simp [placeFrom]
  | succ room ih =>
    match row with
    | [] => exact congrArg (_ :: ·) (ih (column + 1) [])
    | none :: r => exact ih (column + 1) r
    | some cell :: r =>
      have hg : gap (Row.map f r) = gap r := gap_map f r
      have hr : placeFrom (column + 1) room (Row.map f r) = _ := ih (column + 1) r
      show ⟨column, min (gap (Row.map f r)) room + 1, some (cell.map f)⟩ ::
        placeFrom (column + 1) room (Row.map f r) = _
      rw [hg, hr]
      rfl

theorem place_map (f : ν → μ) (columns : Nat) (row : Row ν) :
    (row.map f).place columns = (row.place columns).map (Placement.map f) :=
  placeFrom_map f 0 columns row

section

variable [Memory] {columns : Nat} (row : Row ν)

theorem columnSpans?_of_fits (h : Memory.fits (24 * columns)) : row.columnSpans? columns = some (row.place columns) :=
  if_pos h

theorem columnSpans?_of_not_fits (h : ¬ Memory.fits (24 * columns)) : row.columnSpans? columns = none := if_neg h

end

theorem mem_of_mem_placeFrom {column room : Nat} {row : Row ν} {p : Placement ν} {cell : Cell ν}
    (hp : p ∈ row.placeFrom column room) (hc : p.cell? = some cell) : some cell ∈ row := by
  fun_induction Row.placeFrom column room row with
  | case1 => cases hp
  | case2 column room ih =>
    rcases List.mem_cons.1 hp with rfl | hp
    · cases hc
    · exact ih hp
  | case3 column room r ih => exact List.mem_cons_of_mem _ (ih hp)
  | case4 column room c r ih =>
    rcases List.mem_cons.1 hp with rfl | hp
    · cases hc
      exact List.mem_cons_self ..
    · exact List.mem_cons_of_mem _ (ih hp)

/-- A row that begins with absent entries has no placement on their columns. -/
theorem placeFrom_bounds {p : Placement ν} {column room : Nat} {row : Row ν} (h : p ∈ placeFrom column room row) :
    column + min row.gap room ≤ p.column ∧ p.column + p.span ≤ column + room ∧ 0 < p.span := by
  induction room generalizing column row with
  | zero => cases h
  | succ room ih =>
    rcases row with _ | ⟨_ | cell, r⟩
    · rcases List.mem_cons.1 h with rfl | h
      · simp only [gap]
        omega
      · have hp := ih h
        simp only [gap] at hp ⊢
        omega
    · have hp := ih h
      simp only [gap] at hp ⊢
      omega
    · rcases List.mem_cons.1 h with rfl | h
      · simp only [gap]
        omega
      · have hp := ih h
        simp only [gap] at hp ⊢
        omega

theorem placeFrom_pairwise (column room : Nat) (row : Row ν) :
    (placeFrom column room row).Pairwise fun p q => p.column + p.span ≤ q.column := by
  induction room generalizing column row with
  | zero => exact .nil
  | succ room ih =>
    rcases row with _ | ⟨_ | cell, r⟩
    · refine .cons (fun q hq => ?_) (ih _ _)
      have hb := placeFrom_bounds hq
      show column + 1 ≤ q.column
      omega
    · exact ih _ _
    · -- the cell ends where the absent entries after it end
      refine .cons (fun q hq => ?_) (ih _ _)
      have hb := placeFrom_bounds hq
      show column + (min (gap r) room + 1) ≤ q.column
      omega

theorem mem_place {p : Placement ν} {columns : Nat} {row : Row ν} (h : p ∈ row.place columns) :
    p.column + p.span ≤ columns ∧ 0 < p.span := by
  have hb := placeFrom_bounds h
  omega

end Row

def Placement.contents (p : Placement ν) : List ν := (p.cell?.map Cell.content).toList

/-- The contents of a row that have a place on the grid. -/
def Row.placed (columns : Nat) (row : Row ν) : List ν :=
  (row.place columns).flatMap Placement.contents

/-- The contents of a table that have a place on the grid. -/
def Table.placed (t : Table ν) : List ν := t.allRows.flatMap (Row.placed t.columns.toNat)

theorem Table.placed_flatMap {κ : Type} (t : Table ν) (g : ν → List κ) :
    t.placed.flatMap g =
      (t.headers.flatMap fun cells => (Row.placed t.columns.toNat cells).flatMap g) ++
        t.rows.flatMap fun cells => (Row.placed t.columns.toNat cells).flatMap g := by
  rw [placed, List.flatMap_assoc, allRows, List.flatMap_append]

theorem Placement.contents_map (f : ν → μ) (p : Placement ν) :
    (p.map f).contents = p.contents.map f := by
  rcases p with ⟨column, span, cell?⟩
  cases cell? <;> rfl

theorem Row.placed_map (f : ν → μ) (columns : Nat) (row : Row ν) :
    (row.map f).placed columns = (row.placed columns).map f := by
  rw [Row.placed, place_map, List.flatMap_map, Row.placed, List.map_flatMap]
  congr 1
  funext p
  exact p.contents_map f

theorem Row.mem_of_mem_placed {columns : Nat} {row : Row ν} {n : ν} (h : n ∈ row.placed columns) :
    ∃ cell, some cell ∈ row ∧ cell.content = n := by
  obtain ⟨p, hp, hn⟩ := List.mem_flatMap.1 h
  obtain ⟨cell, hc, rfl⟩ := Option.map_eq_some_iff.1 (Option.mem_toList.1 hn)
  exact ⟨cell, mem_of_mem_placeFrom hp hc, rfl⟩

end XamlDoc
