import XamlDoc.Proofs.Html.Columns
import XamlDoc.Proofs.Render.Grids
import XamlDoc.Proofs.Render.Placement

/-!
# Columns of tables in both views

A table as a grid says for each cell in which column it is; as HTML, the cells follow one another. Both have the same
cells in each row, but where a row begins with absent entries, the HTML moves the others to the front.
-/

namespace XamlDoc

open Markup Gauged
open Markup.Content (allNamed allNamed_append allNamed_singleton named)

/-! ### Columns of a grid -/

/-- The column of a cell in the row of a grid, with the number of columns that it covers. -/
def Markup.Element.extentAt? (cell : Element) (row : Nat) : Option (Nat × Nat) :=
  if cell.attr? "Grid.Row" = some (toString row) then
    some (((cell.attr? "Grid.Column").bind String.toNat?).getD 0,
      ((cell.attr? "Grid.ColumnSpan").bind String.toNat?).getD 1)
  else none

def Markup.Element.columnsAt (grid : Element) (row : Nat) : List (Nat × Nat) :=
  grid.elements.filterMap (·.extentAt? row)

theorem GridCell.extentAt?_eq (c : GridCell) (row : Nat) :
    c.element.extentAt? row = if c.row = row then some (c.column, c.span) else none := by
  have hcolumn : ((c.element.attr? "Grid.Column").bind String.toNat?).getD 0 = c.column := by
    rw [c.column_eq, Option.bind_some, show toString c.column = c.column.repr from rfl, Nat.toNat?_repr]
    rfl
  have hspan : ((c.element.attr? "Grid.ColumnSpan").bind String.toNat?).getD 1 = c.span := by
    have hs := c.span_eq
    cases h : c.element.attr? "Grid.ColumnSpan" with
    | none =>
      rw [h] at hs
      exact Nat.repr_inj.1 hs
    | some value =>
      rw [h] at hs
      obtain rfl : value = c.span.repr := hs
      rw [Option.bind_some, Nat.toNat?_repr]
      rfl
  have hrow : some (toString c.row) = some (toString row) ↔ c.row = row :=
    (Option.some_inj).trans Nat.repr_inj
  rw [Element.extentAt?, hcolumn, hspan, c.row_eq]
  exact if_congr hrow rfl rfl

theorem columnsAt_tableGrid {ν : Type} (t : Table ν) (cells : List GridCell) (row : Nat) :
    (tableGrid t (cells.map fun c => c.element.toContent)).columnsAt row =
      ((cells.map GridCell.toCellPlace).filter fun place => place.row = row).map fun place =>
        (place.column, place.span) := by
  have helements : (tableGrid t (cells.map fun c => c.element.toContent)).elements =
      columnDefinitions (List.replicate t.columns.toNat "Auto") :: rowDefinitions t.allRows.length ::
        cells.map GridCell.element := by
    simp [Element.elements, tableGrid, Content.element?, Element.toContent, List.filterMap_map, Function.comp_def]
  have hplaced : (none : Option String) ≠ some (toString row) := by
    intro h
    cases h
  have hcolumns : (columnDefinitions (List.replicate t.columns.toNat "Auto")).extentAt? row = none := if_neg hplaced
  have hrows : (rowDefinitions t.allRows.length).extentAt? row = none := if_neg hplaced
  simp only [Element.columnsAt, helements, List.filterMap_cons, hcolumns, hrows]
  clear helements
  induction cells with
  | nil => rfl
  | cons c r ih =>
    rw [List.map_cons, List.map_cons, List.filterMap_cons, List.filter_cons, c.extentAt?_eq]
    by_cases hr : c.row = row
    · simp [hr, ih]
    · simp [hr, ih]

theorem Row.places_map {ν μ : Type} (f : ν → μ) (columns row : Nat) (cells : Row ν) :
    (cells.map f).places columns row = cells.places columns row := by
  rw [places, place_map, List.map_map]
  rfl

/-- Among the places of all rows, those in one row are the places of that row. -/
theorem filter_row_eq {α : Type} {places : Nat → α → List CellPlace} {first : Nat}
    (hp : ∀ index a, ∀ place ∈ places index a, place.row = first + index) (items : List α) (i : Nat) :
    ((items.mapIdx places).flatten.filter fun place => place.row = first + i) =
      (items[i]?.map (places i)).getD [] := by
  induction items generalizing places first i with
  | nil => rfl
  | cons a r ih =>
    rw [List.mapIdx_cons, List.flatten_cons, List.filter_append]
    cases i with
    | zero =>
      have hhere : (places 0 a).filter (fun place => place.row = first + 0) = places 0 a :=
        List.filter_eq_self.2 fun place hm => decide_eq_true (hp 0 a place hm)
      have hrest : (r.mapIdx fun index => places (index + 1)).flatten.filter
          (fun place => place.row = first + 0) = [] := by
        refine List.filter_eq_nil_iff.2 fun place hm => ?_
        obtain ⟨l, hl, hm⟩ := List.mem_flatten.1 hm
        obtain ⟨index, hi, rfl⟩ := List.mem_mapIdx.1 hl
        have hrow := hp (index + 1) _ place hm
        simp only [decide_eq_true_eq]
        omega
      rw [hhere, hrest, List.append_nil]
      rfl
    | succ i =>
      have hhere : (places 0 a).filter (fun place => place.row = first + (i + 1)) = [] := by
        refine List.filter_eq_nil_iff.2 fun place hm => ?_
        have hrow := hp 0 a place hm
        simp only [decide_eq_true_eq]
        omega
      have hrows (index : Nat) (b : α) (place : CellPlace) (hm : place ∈ places (index + 1) b) :
          place.row = first + 1 + index := by
        rw [hp (index + 1) b place hm, Nat.add_assoc, Nat.add_comm 1]
      have hrest := ih hrows i
      rw [hhere, List.nil_append, ← Nat.add_assoc, Nat.add_right_comm, hrest]
      rfl

namespace Writes

variable {σ : Type} [Writer σ] [Gauged σ]

theorem inRowsAt {α : Type} {items : List α} {f : Nat → α → Rendering Unit} {places : Nat → α → List CellPlace}
    (hf : ∀ row, ∀ i ∈ items, Writes σ (CellsAt (places row i)) Unit (f row i)) :
    Writes σ (CellsAt (items.mapIdx places).flatten) Unit (Layout.inRows f items) := by
  induction items generalizing f places with
  | nil => exact quiet (fun p => ⟨_, rfl⟩) cellsAt_nil
  | cons i r ih =>
    rw [Layout.inRows, List.mapIdx_cons, List.mapIdx_cons, List.flatten_cons]
    have hr : Writes σ (CellsAt (r.mapIdx fun row => places (row + 1)).flatten) Unit
        (Layout.inRows (fun row => f (row + 1)) r) :=
      ih fun row j hj => hf (row + 1) j (List.mem_cons_of_mem i hj)
    exact (hf 0 i (List.mem_cons_self ..)).bind (fun _ => hr) CellsAt.append

variable {ν : Type} {part : ν → Part} {d : Dialect}

/-- The grid of a table comes first among its grids, and has the cells of the placements row by row. -/
theorem tableCells {t : Table ν} (ht : ∀ n ∈ t.placed, ∀ header a,
      Writes σ Tiles Unit ((part n).render { Style.plain with bold := header, alignment := a })) :
    Writes σ (fun k => ∃ grid, (allNamed "Grid" k).head? = some grid ∧ ∀ (i : Nat) (row : Row ν),
      t.allRows[i]? = some row → grid.columnsAt i = (row.place t.columns.toNat).map Placement.extent) Unit
      (Layout.table d (t.map part)) := by
  let places (row : Nat) (cells : Row Part) := cells.places t.columns.toNat row
  have hplaces (row : Nat) (cells : Row ν) : places row (cells.map part) = cells.places t.columns.toNat row :=
    Row.places_map ..
  have hc : Writes σ (CellsAt ((t.map part).allRows.mapIdx places).flatten) Unit
      (Layout.inRows (Layout.tableRow d (t.map part)) (t.map part).allRows) := by
    refine inRowsAt fun row cells hm => ?_
    rw [Table.allRows_map] at hm
    obtain ⟨cells, hcells, rfl⟩ := List.mem_map.1 hm
    rw [hplaces]
    exact tableRow (t.map part) row fun n hn => ht n (List.mem_flatMap.2 ⟨cells, hcells, hn⟩)
  refine (aroundRows hc).mono fun k hk => ?_
  obtain ⟨k', ⟨-, cells, rfl, hcells⟩, hn⟩ := hk
  refine ⟨tableGrid t (cells.map fun c => c.element.toContent), ?_, fun i row hr => ?_⟩
  · rw [hn, Element.toContent, allNamed_singleton]
    rfl
  · have hrow (index : Nat) (cells : Row Part) (place : CellPlace) (hm : place ∈ places index cells) :
        place.row = 0 + index := by
      obtain ⟨p, -, rfl⟩ := List.mem_map.1 hm
      exact (Nat.zero_add index).symm
    have hcells' := filter_row_eq hrow (t.map part).allRows i
    rw [← hcells, Nat.zero_add, Table.allRows_map, List.getElem?_map, hr, Option.map_some, Option.map_some, hplaces,
      Option.getD_some] at hcells'
    rw [columnsAt_tableGrid, hcells', Row.places, List.map_map]
    rfl

end Writes

namespace Render

variable {setting : Setting} {limit : Nat} {D : Document} {levels : Nat} {expanding : List String}

/-- A table that is rendered in both views has the same cells in each row, with the same numbers of columns. In the grid
they are in the columns of their placements; in HTML they are that many columns further to the front as the row has
absent entries there. So the columns of a row are the same just if it has none of these, or no cells behind them. -/
theorem table_columns_eq_iff (hx : setting.extensions.BuiltIn) (T : Table Node) (st : Style) (p : Progress)
    (t t' : Traversal) {r : Unit × Progress} {l : List Html.Fragment} :
    let s := scopeWithin setting limit D levels expanding
    (Writing.run (node s (.table T) st p) TreeBuilder.empty).1 = .ok r → Html.node s.html (.table T) t = .ok (l, t') →
      ∃ grid f, (allNamed "Grid" (Writing.run (node s (.table T) st p) TreeBuilder.empty).2.finish).head? = some grid ∧
        l = [f] ∧ f.rowColumns.length = T.allRows.length ∧ ∀ (i : Nat) (row : Row Node), T.allRows[i]? = some row →
          grid.columnsAt i = (row.place T.columns.toNat).map Placement.extent ∧
          f.rowColumns[i]? = some ((grid.columnsAt i).map fun c => (c.1 - row.gap, c.2)) ∧
          (f.rowColumns[i]? = some (grid.columnsAt i) ↔ row.gap = 0 ∨ T.columns.toNat ≤ row.gap) := by
  intro s hr hl
  obtain ⟨f, rfl, hf⟩ := Html.rowColumns_of_node hl
  have hcells : Writes TreeBuilder (fun k => ∃ grid, (allNamed "Grid" k).head? = some grid ∧
      ∀ (i : Nat) (row : Row Node), T.allRows[i]? = some row →
        grid.columnsAt i = (row.place T.columns.toNat).map Placement.extent) Unit
      (node s (.table T) st) := by
    rw [node_table]
    refine Writes.visit ((Writes.flush_gridless s.profile).bind (fun _ => Writes.tableCells fun n hn header a => ?_) ?_)
    · have hs : Closed s.setting (fun α m => Writes TreeBuilder Tiles α m) fun _ _ => True :=
        (scopeWithin_setting ..).symm ▸ Writes.closed hx
      have hw := hs.traversed ((Writes.closed hx).scopeWithin limit D levels expanding)
      exact Walked.node hs.toCompositional hw.toWalked (fun m _ => hw.offersNode m) _
    · intro k k' hk hk'
      rwa [allNamed_append, hk]
  obtain ⟨k, hk, grid, hg, hcolumns⟩ := hcells p TreeBuilder.empty trivial r hr
  refine ⟨grid, f, ?_, rfl, by rw [hf, List.length_map], fun i row hi => ?_⟩
  · rw [Writing.run_eq_after, hk, TreeBuilder.finish_allCalls]
    exact hg
  · have hrow : f.rowColumns[i]? = some ((row.place T.columns.toNat).map fun p => (p.column - row.gap, p.span)) := by
      rw [hf, List.getElem?_map, hi]
      rfl
    rw [hrow, hcolumns i row hi, List.map_map]
    exact ⟨rfl, rfl, Option.some_inj.trans Row.map_sub_gap_eq_iff⟩

/-- A header over two columns, a row that begins with an absent entry, one that is too short and one with absent entries
only. -/
def gappedTable : Table Node :=
  { (Table.ofColumns 3 : Table Node) with
    headers := [[some ⟨.text "a", none⟩, none, some ⟨.text "b", none⟩]]
    rows := [[none, some ⟨.text "c", none⟩, none], [some ⟨.strong [.text "d"], none⟩], [none, none, none]] }

theorem table_columns_eq_iff_gapped :
    let s := scopeWithin ⟨.ofKind .maui, .standard⟩ 4 (.ofNodes [.table gappedTable]) 0 []
    ∃ grid f t', (allNamed "Grid" (Writing.run (node s (.table gappedTable) .plain ⟨.start none, ∅⟩)
        TreeBuilder.empty).2.finish).head? = some grid ∧
      Html.node s.html (.table gappedTable) (.start none) = .ok ([f], t') ∧
      f.rowColumns[0]? = some (grid.columnsAt 0) ∧ f.rowColumns[1]? ≠ some (grid.columnsAt 1) ∧
      f.rowColumns[2]? = some (grid.columnsAt 2) ∧ f.rowColumns[3]? = some (grid.columnsAt 3) := by
  intro s
  obtain ⟨q, w, hr⟩ := exists_run (r := Writing.run (node s (.table gappedTable) .plain ⟨.start none, ∅⟩)
    TreeBuilder.empty) (by decide +kernel)
  obtain ⟨l, t', hl⟩ : ∃ l t', Html.node s.html (.table gappedTable) (.start none) = .ok (l, t') := ⟨_, _, rfl⟩
  obtain ⟨grid, f, hg, rfl, -, hrows⟩ := @table_columns_eq_iff ⟨.ofKind .maui, .standard⟩ 4
    (.ofNodes [.table gappedTable]) 0 [] builtIn_standard gappedTable .plain ⟨.start none, ∅⟩ (.start none) t' _ _
    (congrArg Prod.fst hr) hl
  refine ⟨grid, f, t', hg, hl, ?_, ?_, ?_, ?_⟩
  · exact (hrows 0 _ rfl).2.2.2 (by decide)
  · exact (hrows 1 _ rfl).2.2.not.2 (by decide)
  · exact (hrows 2 _ rfl).2.2.2 (by decide)
  · exact (hrows 3 _ rfl).2.2.2 (by decide)

def gappedRow : Table Node := { (Table.ofColumns 2 : Table Node) with rows := [[none, some ⟨.text "B", none⟩]] }

/-- A cell in the second column of the grid stands in the first one in HTML. -/
theorem table_columns_moved :
    let s := scopeWithin ⟨.ofKind .maui, .standard⟩ 4 (.ofNodes [.htmlBlock [.table gappedRow]]) 0 []
    (allNamed "Frame" (Writing.run (node s (.table gappedRow) .plain ⟨.start none, ∅⟩) TreeBuilder.empty).2.finish).map
        (fun cell => (cell.attr? "Grid.Row", cell.attr? "Grid.Column", cell.attr? "Grid.ColumnSpan")) =
        [(some "0", some "1", none)] ∧
      ∃ f t', Html.node s.html (.table gappedRow) (.start none) = .ok ([f], t') ∧ f.rowColumns = [[(0, 1)]] ∧
        f.markup = "<table><tr><td>B</td></tr></table>" :=
  ⟨by decide +kernel, _, _, rfl, by decide +kernel, by decide +kernel⟩

end Render

end XamlDoc
