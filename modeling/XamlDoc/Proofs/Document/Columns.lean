import XamlDoc.Proofs.Document.Contents

/-!
# Columns of a row

The placements of a row tile the grid: from the first column that holds a cell or lies past the end of the row on, every
column is covered once. A walk from cell to cell, which jumps over the absent entries after each cell, gives the same
placements and stays inside the row. It is taken only if there is room for as many placements as there are columns.
-/

namespace XamlDoc

variable {ν : Type}

def Placement.Covers (p : Placement ν) (column : Nat) : Prop :=
  p.column ≤ column ∧ column < p.column + p.span

namespace Row

/-! ### The run of absent entries at the front -/

theorem getElem?_lt_gap {row : Row ν} {i : Nat} (h : i < row.gap) : row[i]? = some none := by
  induction row generalizing i with
  | nil => cases h
  | cons cell? r ih =>
    rcases cell? with _ | cell
    · cases i with
      | zero => rfl
      | succ i => exact ih (Nat.lt_of_succ_lt_succ h)
    · cases h

theorem getElem?_gap (row : Row ν) : row[row.gap]? ≠ some none := by
  induction row with
  | nil => exact nofun
  | cons cell? r ih =>
    rcases cell? with _ | cell
    · exact ih
    · exact nofun

theorem gap_le_length (row : Row ν) : row.gap ≤ row.length := by
  induction row with
  | nil => exact Nat.le_refl 0
  | cons cell? r ih =>
    rcases cell? with _ | cell
    · exact Nat.succ_le_succ ih
    · exact Nat.zero_le _

theorem length_takeWhile_take (row : Row ν) (n : Nat) :
    ((row.take n).takeWhile Option.isNone).length = min row.gap n := by
  induction row generalizing n with
  | nil => simp [gap]
  | cons cell? r ih =>
    cases n with
    | zero => simp
    | succ n =>
      rcases cell? with _ | cell
      · have hr := ih n
        simp only [gap, List.take_succ_cons, List.takeWhile_cons, Option.isNone_none, if_true, List.length_cons, hr]
        omega
      · simp [gap]

/-! ### Where placements start -/

/-- The placement that starts on a column, if one does. -/
def starting? (columns : Nat) (row : Row ν) (column : Nat) : Option (Placement ν) :=
  match row.drop column with
  | [] => some ⟨column, 1, none⟩
  | none :: _ => none
  | some cell :: r => some ⟨column, min (gap r) (columns - (column + 1)) + 1, some cell⟩

theorem placeFrom_eq_filterMap (row : Row ν) (column room : Nat) :
    placeFrom column room (row.drop column) =
      (List.range' column room).filterMap (row.starting? (column + room)) := by
  induction room generalizing column with
  | zero => rfl
  | succ room ih =>
    have hrest := ih (column + 1)
    have hroom : column + 1 + room = column + (room + 1) := by omega
    rw [← List.tail_drop, hroom] at hrest
    rw [List.range'_succ, List.filterMap_cons, ← hrest, starting?]
    rcases row.drop column with _ | ⟨_ | cell, r⟩
    · rfl
    · rfl
    · have hleft : column + (room + 1) - (column + 1) = room := by omega
      rw [hleft]
      rfl

/-- The columns are gone through in order, and each is asked for the placement that starts there. -/
theorem place_eq_filterMap (columns : Nat) (row : Row ν) :
    row.place columns = (List.range columns).filterMap (row.starting? columns) := by
  have h := placeFrom_eq_filterMap row 0 columns
  rwa [Nat.zero_add, ← List.range_eq_range'] at h

theorem column_of_starting? {columns column : Nat} {row : Row ν} {p : Placement ν}
    (h : row.starting? columns column = some p) : p.column = column := by
  unfold starting? at h
  split at h <;> cases h <;> rfl

theorem mem_place_iff {columns : Nat} {row : Row ν} {p : Placement ν} :
    p ∈ row.place columns ↔ p.column < columns ∧ row.starting? columns p.column = some p := by
  rw [place_eq_filterMap, List.mem_filterMap]
  constructor
  · rintro ⟨column, hc, hp⟩
    rw [column_of_starting? hp]
    exact ⟨List.mem_range.1 hc, hp⟩
  · rintro ⟨hc, hp⟩
    exact ⟨p.column, List.mem_range.2 hc, hp⟩

theorem starting?_eq_none (columns : Nat) {column : Nat} {row : Row ν} :
    row.starting? columns column = none ↔ row[column]? = some none := by
  rw [← List.head?_drop, starting?]
  rcases row.drop column with _ | ⟨_ | cell, r⟩ <;> simp

theorem starting?_of_length_le {columns column : Nat} {row : Row ν} (h : row.length ≤ column) :
    row.starting? columns column = some ⟨column, 1, none⟩ := by
  rw [starting?, List.drop_eq_nil_of_le h]

theorem starting?_of_getElem? (columns : Nat) {column : Nat} {row : Row ν} {cell : Cell ν}
    (h : row[column]? = some (some cell)) :
    row.starting? columns column =
      some ⟨column, min (gap (row.drop (column + 1))) (columns - (column + 1)) + 1, some cell⟩ := by
  obtain ⟨hl, hc⟩ := List.getElem?_eq_some_iff.1 h
  rw [starting?, List.drop_eq_getElem_cons hl, hc]

/-! ### The tiling -/

/-- What it means for placements to lay out a row on a grid: they follow one another from left to right inside the grid
and leave nothing but the absent entries before the first cell uncovered. -/
structure Tiling (columns : Nat) (row : Row ν) (placements : List (Placement ν)) : Prop where
  increasing : placements.Pairwise fun p q => p.column < q.column
  disjoint : placements.Pairwise fun p q => ∀ column, ¬ (p.Covers column ∧ q.Covers column)
  inside : ∀ p ∈ placements, 0 < p.span ∧ p.column + p.span ≤ columns
  covered : ∀ column, (∃ p ∈ placements, p.Covers column) ↔
    column < columns ∧ ∃ first, first ≤ column ∧ row[first]? ≠ some none
  /-- A placement inside the row has the cell of its column and goes on over the absent entries after it, as far as both
  the grid and the row reach. -/
  cell : ∀ p ∈ placements, p.column < row.length →
    (∃ cell, p.cell? = some cell ∧ row[p.column]? = some (some cell)) ∧
    (∀ column, p.column < column → p.Covers column → row[column]? = some none) ∧
    p.column + p.span ≤ min columns row.length ∧
    (p.column + p.span < min columns row.length → row[p.column + p.span]? ≠ some none)
  filled : ∀ p ∈ placements, row.length ≤ p.column → p.span = 1 ∧ p.cell? = none
  once : ∀ (column : Nat) (cell : Cell ν), column < columns → row[column]? = some (some cell) →
    ∃ span, placements.filter (fun p => p.column == column) = [⟨column, span, some cell⟩]

theorem place_increasing (columns : Nat) (row : Row ν) :
    (row.place columns).Pairwise fun p q => p.column < q.column := by
  refine (placeFrom_pairwise 0 columns row).imp_of_mem fun {p q} hp _ hpq => ?_
  have hspan := (mem_place hp).2
  omega

theorem place_disjoint (columns : Nat) (row : Row ν) :
    (row.place columns).Pairwise fun p q => ∀ column, ¬ (p.Covers column ∧ q.Covers column) := by
  refine (placeFrom_pairwise 0 columns row).imp fun {p q} hpq column h => ?_
  have hp := h.1.2
  have hq := h.2.1
  omega

theorem place_cell {columns : Nat} {row : Row ν} {p : Placement ν} (hp : p ∈ row.place columns)
    (hl : p.column < row.length) :
    (∃ cell, p.cell? = some cell ∧ row[p.column]? = some (some cell)) ∧
    (∀ column, p.column < column → p.Covers column → row[column]? = some none) ∧
    p.column + p.span ≤ min columns row.length ∧
    (p.column + p.span < min columns row.length → row[p.column + p.span]? ≠ some none) := by
  obtain ⟨hc, hs⟩ := mem_place_iff.1 hp
  obtain ⟨entry, he⟩ : ∃ entry, row[p.column]? = some entry := ⟨_, List.getElem?_eq_getElem hl⟩
  rcases entry with _ | cell
  · rw [(starting?_eq_none columns).2 he] at hs
    cases hs
  · have hr := starting?_of_getElem? columns he
    rw [hs] at hr
    have hspan : p.span = min (gap (row.drop (p.column + 1))) (columns - (p.column + 1)) + 1 :=
      congrArg Placement.span (Option.some.inj hr)
    have hcell : p.cell? = some cell := congrArg Placement.cell? (Option.some.inj hr)
    have hgap := gap_le_length (row.drop (p.column + 1))
    rw [List.length_drop] at hgap
    refine ⟨⟨cell, hcell, he⟩, fun column hlt hcov => ?_, by omega, fun hend => ?_⟩
    · -- the column lies in the run after the cell
      have hcov := hcov.2
      have hin : column - (p.column + 1) < gap (row.drop (p.column + 1)) := by omega
      have hrun := getElem?_lt_gap hin
      rwa [List.getElem?_drop, Nat.add_sub_cancel' hlt] at hrun
    · -- short of both ends, the span stops where the run does
      have hstop : p.column + p.span = p.column + 1 + gap (row.drop (p.column + 1)) := by omega
      rw [hstop, ← List.getElem?_drop]
      exact getElem?_gap _

theorem place_filled {columns : Nat} {row : Row ν} {p : Placement ν} (hp : p ∈ row.place columns)
    (hl : row.length ≤ p.column) : p.span = 1 ∧ p.cell? = none := by
  have hs := (mem_place_iff.1 hp).2
  rw [starting?_of_length_le hl] at hs
  rw [← Option.some.inj hs]
  exact ⟨rfl, rfl⟩

theorem covers_starting {columns column : Nat} {row : Row ν} (hc : column < columns)
    (h : row[column]? ≠ some none) : ∃ p ∈ row.place columns, p.Covers column := by
  obtain ⟨p, hp⟩ := Option.ne_none_iff_exists'.1 (mt (starting?_eq_none columns).1 h)
  obtain rfl := column_of_starting? hp
  have hmem := mem_place_iff.2 ⟨hc, hp⟩
  have hspan := (mem_place hmem).2
  exact ⟨p, hmem, Nat.le_refl _, by omega⟩

/-- Every column from a cell on, or from the end of the row on, is covered. -/
theorem covered_of_le {columns column first : Nat} {row : Row ν} (hc : column < columns) (hf : first ≤ column)
    (hentry : row[first]? ≠ some none) : ∃ p ∈ row.place columns, p.Covers column := by
  induction column with
  | zero =>
    obtain rfl : first = 0 := Nat.le_zero.1 hf
    exact covers_starting hc hentry
  | succ column ih =>
    by_cases hnone : row[column + 1]? = some none
    · have hne : first ≠ column + 1 := fun h => hentry (h ▸ hnone)
      obtain ⟨p, hp, hfrom, hto⟩ := ih (by omega) (by omega)
      obtain ⟨hlt, -⟩ := List.getElem?_eq_some_iff.1 hnone
      obtain ⟨-, -, -, hmaximal⟩ := place_cell hp (by omega)
      refine ⟨p, hp, by omega, Nat.lt_of_not_le fun hend => ?_⟩
      -- a placement that ends before an absent entry would not reach as far as it can
      have hstop : p.column + p.span = column + 1 := by omega
      exact hmaximal (by omega) (hstop ▸ hnone)
    · exact covers_starting hc hnone

theorem place_covered (columns : Nat) (row : Row ν) (column : Nat) :
    (∃ p ∈ row.place columns, p.Covers column) ↔
      column < columns ∧ ∃ first, first ≤ column ∧ row[first]? ≠ some none := by
  constructor
  · rintro ⟨p, hp, hfrom, hto⟩
    have hin := (mem_place hp).1
    refine ⟨by omega, p.column, hfrom, fun hnone => ?_⟩
    have hs := (mem_place_iff.1 hp).2
    rw [(starting?_eq_none columns).2 hnone] at hs
    cases hs
  · rintro ⟨hc, first, hf, hentry⟩
    exact covered_of_le hc hf hentry

theorem filter_column {placements : List (Placement ν)} {p : Placement ν}
    (h : placements.Pairwise fun p q => p.column < q.column) (hp : p ∈ placements) :
    placements.filter (fun q => q.column == p.column) = [p] := by
  induction placements with
  | nil => cases hp
  | cons q rest ih =>
    obtain ⟨hq, hrest⟩ := List.pairwise_cons.1 h
    rcases List.mem_cons.1 hp with rfl | hmem
    · have hnone : rest.filter (fun q => q.column == p.column) = [] :=
        List.filter_eq_nil_iff.2 fun r hr => by simpa using Nat.ne_of_gt (hq r hr)
      rw [List.filter_cons_of_pos (by simp), hnone]
    · rw [List.filter_cons_of_neg (by simpa using Nat.ne_of_lt (hq p hmem)), ih hrest hmem]

theorem place_once {columns column : Nat} {row : Row ν} {cell : Cell ν} (hc : column < columns)
    (h : row[column]? = some (some cell)) :
    ∃ span, (row.place columns).filter (fun p => p.column == column) = [⟨column, span, some cell⟩] := by
  have hmem : ⟨column, _, some cell⟩ ∈ row.place columns := mem_place_iff.2 ⟨hc, starting?_of_getElem? columns h⟩
  exact ⟨_, filter_column (place_increasing columns row) hmem⟩

theorem tiling_place (columns : Nat) (row : Row ν) : Tiling columns row (row.place columns) where
  increasing := place_increasing columns row
  disjoint := place_disjoint columns row
  inside := fun _ hp => (mem_place hp).symm
  covered := place_covered columns row
  cell := fun _ hp hl => place_cell hp hl
  filled := fun _ hp hl => place_filled hp hl
  once := fun _ _ hc h => place_once hc h

/-! ### The walk over the columns -/

/-- The entries from `start` up to `stop`, if these are bounds of a part of the row. -/
def slice? (row : Row ν) (start stop : Nat) : Option (Row ν) :=
  if start ≤ stop ∧ stop ≤ row.length then some ((row.take stop).drop start) else none

/-- The placements from a column on, read off the row by index: after a cell the walk goes on behind the absent entries
the cell extends over. There is no result where an index or a bound lies outside the row. -/
def walk? (columns : Nat) (row : Row ν) (column : Nat) : Option (List (Placement ν)) :=
  if column < columns then
    match row[column]? with
    | some (some cell) => do
      let after ← slice? row (column + 1) (min columns row.length)
      let continued := (after.takeWhile Option.isNone).length
      let rest ← walk? columns row (column + (continued + 1))
      return ⟨column, continued + 1, some cell⟩ :: rest
    | some none => walk? columns row (column + 1)
    | none => do
      let rest ← walk? columns row (column + 1)
      return ⟨column, 1, none⟩ :: rest
  else some []
termination_by columns - column

/-- The walk over all columns, after as many placements as there are columns have been reserved. -/
def walkAll? [Memory] (columns : Nat) (row : Row ν) : Option (List (Placement ν)) :=
  if Memory.fits (24 * columns) then row.walk? columns 0 else none

/-- The placements that start from a column on. -/
def startingFrom (columns : Nat) (row : Row ν) (column : Nat) : List (Placement ν) :=
  (List.range' column (columns - column)).filterMap (row.starting? columns)

theorem startingFrom_of_le {columns column : Nat} (row : Row ν) (h : columns ≤ column) :
    row.startingFrom columns column = [] := by
  rw [startingFrom, Nat.sub_eq_zero_of_le h]
  rfl

theorem startingFrom_of_lt {columns column : Nat} (row : Row ν) (h : column < columns) :
    row.startingFrom columns column =
      (row.starting? columns column).toList ++ row.startingFrom columns (column + 1) := by
  have hlen : columns - column = columns - (column + 1) + 1 := by omega
  rw [startingFrom, hlen, List.range'_succ, List.filterMap_cons]
  cases row.starting? columns column <;> rfl

theorem startingFrom_absent {columns column : Nat} {row : Row ν} (count : Nat) (hc : column + count ≤ columns)
    (h : ∀ i < count, row[column + i]? = some none) :
    row.startingFrom columns column = row.startingFrom columns (column + count) := by
  induction count with
  | zero => rfl
  | succ count ih =>
    have hnone := (starting?_eq_none columns).2 (h count (Nat.lt_succ_self _))
    rw [ih (by omega) fun i hi => h i (by omega), startingFrom_of_lt row (by omega), hnone]
    rfl

theorem slice?_after {columns column : Nat} (row : Row ν) (hc : column < columns) (hl : column < row.length) :
    ∃ after, slice? row (column + 1) (min columns row.length) = some after ∧
      (after.takeWhile Option.isNone).length = min (gap (row.drop (column + 1))) (columns - (column + 1)) := by
  refine ⟨_, if_pos ⟨by omega, Nat.min_le_right ..⟩, ?_⟩
  have hgap := gap_le_length (row.drop (column + 1))
  rw [List.length_drop] at hgap
  rw [List.drop_take, length_takeWhile_take]
  omega

theorem walk?_eq (columns : Nat) (row : Row ν) (column : Nat) :
    row.walk? columns column = some (row.startingFrom columns column) := by
  fun_induction walk? columns row column with
  | case1 column hc cell hcell ih =>
    obtain ⟨hl, -⟩ := List.getElem?_eq_some_iff.1 hcell
    obtain ⟨after, hafter, hlen⟩ := slice?_after row hc hl
    have hspan := starting?_of_getElem? columns hcell
    rw [← hlen] at hspan
    -- nothing starts on the entries that are jumped over
    have hjump : row.startingFrom columns (column + 1) =
        row.startingFrom columns (column + 1 + (after.takeWhile Option.isNone).length) :=
      startingFrom_absent _ (by omega) fun i hi => by
        rw [← List.getElem?_drop]
        exact getElem?_lt_gap (by omega)
    have hrest : walk? columns row (column + ((after.takeWhile Option.isNone).length + 1)) =
        some (row.startingFrom columns (column + 1)) := by
      rw [hjump, Nat.add_assoc, Nat.add_comm 1]
      exact ih after
    rw [startingFrom_of_lt row hc, hspan, hafter]
    simp only [Option.bind_eq_bind, Option.bind_some, hrest, Option.pure_def, Option.toList_some, List.singleton_append]
  | case2 column hc hnone ih =>
    rw [ih, startingFrom_of_lt row hc, (starting?_eq_none columns).2 hnone]
    rfl
  | case3 column hc hend ih =>
    rw [ih, startingFrom_of_lt row hc, starting?_of_length_le (List.getElem?_eq_none_iff.1 hend)]
    rfl
  | case4 column hc => rw [startingFrom_of_le row (Nat.le_of_not_lt hc)]

theorem walkAll?_eq [Memory] (columns : Nat) (row : Row ν) : row.walkAll? columns = row.columnSpans? columns := by
  rw [walkAll?, columnSpans?, walk?_eq, startingFrom, place_eq_filterMap, List.range_eq_range']
  rfl

/-- Whatever a row is made of, the walk over it stays inside and finds the placements of the row, which tile the grid,
just if there is room for as many placements as there are columns. -/
theorem columnSpans_tiles (columns : Nat) (row : Row ν) :
    @walkAll? ν .addressable columns row = @columnSpans? ν .addressable columns row ∧
      match @columnSpans? ν .addressable columns row with
      | some placements => 24 * columns < Memory.reach ∧ Tiling columns row placements
      | none => Memory.reach ≤ 24 * columns := by
  refine ⟨@walkAll?_eq ν .addressable columns row, ?_⟩
  by_cases h : 24 * columns < Memory.reach
  · rw [@columnSpans?_of_fits _ .addressable _ row (decide_eq_true h)]
    exact ⟨h, tiling_place columns row⟩
  · rw [@columnSpans?_of_not_fits _ .addressable _ row (mt of_decide_eq_true h)]
    exact Nat.le_of_not_lt h

theorem columnSpans_tiles_gapped :
    let row : Row String := [none, some ⟨"a", none⟩, none, some ⟨"b", none⟩, none]
    let placements := [⟨1, 2, some ⟨"a", none⟩⟩, ⟨3, 1, some ⟨"b", none⟩⟩]
    @columnSpans? String .addressable 4 row = some placements ∧ Tiling 4 row placements := by
  intro row placements
  have hs : @columnSpans? String .addressable 4 row = some placements := rfl
  have ht := (columnSpans_tiles 4 row).2
  rw [hs] at ht
  exact ⟨hs, ht.2⟩

/-- As many columns as there are numbers of 64 bits are too many even for a row without entries. -/
theorem columnSpans_none_widest : (@columnSpans? String .addressable 18446744073709551615 []).isNone := by decide

end Row

end XamlDoc
