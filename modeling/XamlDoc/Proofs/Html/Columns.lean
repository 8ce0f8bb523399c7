import Mathlib
import XamlDoc.Proofs.Document.Columns
import XamlDoc.Proofs.Html.Yields

/-!
# Columns of HTML tables

The cells of an HTML row do not say where they are: each starts where the one before it ends. So a row starts in the
first column, although there is no placement on the absent entries that it begins with.
-/

namespace XamlDoc

variable {ν : Type}

/-! ### Placements one after the other -/

/-- The columns where cells start that cover so many columns each, when each starts where the one before it ends. -/
def successive : Nat → List Nat → List (Nat × Nat)
  | _, [] => []
  | column, span :: r => (column, span) :: successive (column + span) r

theorem successive_add (column n : Nat) (spans : List Nat) :
    successive (column + n) spans = (successive column spans).map fun c => (c.1 + n, c.2) := by
  induction spans generalizing column with
  | nil => rfl
  | cons span r ih =>
    rw [successive, successive, List.map_cons, ← ih, Nat.add_right_comm]

def Placement.extent (p : Placement ν) : Nat × Nat := (p.column, p.span)

namespace Row

theorem successive_placeFrom (column room : Nat) (row : Row ν) :
    successive (column + min row.gap room) ((placeFrom column room row).map Placement.span) =
      (placeFrom column room row).map Placement.extent := by
  induction room generalizing column row with
  | zero => rfl
  | succ room ih =>
    match row with
    | [] =>
      have hgap (room : Nat) : min (gap ([] : Row ν)) room = 0 := Nat.zero_min room
      have hr := ih (column + 1) []
      rw [hgap, Nat.add_zero] at hr ⊢
      rw [placeFrom, List.map_cons, List.map_cons, successive, hr, Placement.extent]
    | none :: r =>
      have hgap : column + min (gap (none :: r)) (room + 1) = column + 1 + min (gap r) room := by
        simp only [gap]
        omega
      rw [placeFrom, hgap]
      exact ih (column + 1) r
    | some cell :: r =>
      have hgap : min (gap (some cell :: r)) (room + 1) = 0 := Nat.zero_min (room + 1)
      have hend : column + (min (gap r) room + 1) = column + 1 + min (gap r) room := by omega
      rw [hgap, Nat.add_zero, placeFrom, List.map_cons, List.map_cons, successive, hend, ih, Placement.extent]

theorem placeFrom_eq_nil_iff {column room : Nat} {row : Row ν} : placeFrom column room row = [] ↔ room ≤ row.gap := by
  induction room generalizing column row with
  | zero => simp [placeFrom]
  | succ room ih =>
    rcases row with _ | ⟨_ | cell, r⟩
    · simp [placeFrom, gap]
    · rw [placeFrom, ih, gap, Nat.succ_le_succ_iff]
    · simp [placeFrom, gap]

/-- Cells that follow one another from the first column on have the columns of the placements, but for the absent
entries at the front of the row. -/
theorem successive_place (columns : Nat) (row : Row ν) :
    successive 0 ((row.place columns).map Placement.span) =
      (row.place columns).map fun p => (p.column - row.gap, p.span) := by
  rcases Nat.lt_or_ge row.gap columns with hg | hg
  · have h := successive_placeFrom 0 columns row
    rw [Nat.min_eq_left (Nat.le_of_lt hg), successive_add] at h
    have hback := congrArg (List.map fun c : Nat × Nat => (c.1 - row.gap, c.2)) h
    simpa [place, List.map_map, Function.comp_def, Placement.extent] using hback
  · rw [place, placeFrom_eq_nil_iff.2 hg]
    rfl

/-- That is right just if there is no absent entry at the front, or nothing behind those that there are. -/
theorem map_sub_gap_eq_iff {columns : Nat} {row : Row ν} :
    ((row.place columns).map fun p => (p.column - row.gap, p.span)) = (row.place columns).map Placement.extent ↔
      row.gap = 0 ∨ columns ≤ row.gap := by
  constructor
  · intro h
    rcases Nat.lt_or_ge row.gap columns with hg | hg
    · -- the first placement would have moved to the front
      have hne : row.place columns ≠ [] := mt placeFrom_eq_nil_iff.1 (Nat.not_le.2 hg)
      obtain ⟨p, hp⟩ := List.exists_mem_of_ne_nil _ hne
      have hcolumn := (placeFrom_bounds hp).1
      have he := congrArg Prod.fst (List.map_inj_left.1 h p hp)
      simp only [Placement.extent] at he
      omega
    · exact .inr hg
  · rintro (h | h)
    · rw [h]
      rfl
    · rw [place, placeFrom_eq_nil_iff.2 h]
      rfl

end Row

namespace Html

/-! ### Columns of cells -/

/-- How many columns a cell covers: one, unless it says how many. -/
def Fragment.span : Fragment → Nat
  | .element _ attributes _ => ((attributes.lookup .colspan).bind String.toNat?).getD 1
  | _ => 1

/-- The columns of the cells of a row, with the numbers of columns that they cover. -/
def Fragment.cellColumns? : Fragment → Option (List (Nat × Nat))
  | .element .tr _ cells => some (successive 0 (cells.map Fragment.span))
  | _ => none

/-- The columns of the cells in each row of a table. -/
def Fragment.rowColumns : Fragment → List (List (Nat × Nat))
  | .element .table _ parts => parts.filterMap Fragment.cellColumns?
  | _ => []

variable {ι κ : Type}

theorem yields_inOrder {g : List Fragment → List κ} (hn : g [] = []) (ha : ∀ k l, g (k ++ l) = g k ++ g l)
    {items : List ι} {f : ι → Part} {e : ι → κ} (hi : ∀ i ∈ items, Yields (g · = [e i]) (f i)) :
    Yields (g · = items.map e) (inOrder (items.map f)) := by
  induction items with
  | nil => exact .done hn
  | cons i r ih =>
    have hr := ih fun j hj => hi j (List.mem_cons_of_mem i hj)
    refine (hi i (List.mem_cons_self ..)).andThen fun k hk => hr.andThen fun l hl => .done ?_
    rw [ha, hk, hl]
    rfl

theorem yields_placedCell (tag : Tag) {p : Placement Part} (hp : 0 < p.span) :
    Yields (List.map Fragment.span · = [p.span]) (placedCell tag p) := by
  refine (Yields.any _).andThen fun content _ => .done ?_
  rw [List.map_singleton, Fragment.span]
  split
  · rw [List.lookup_cons_self, Option.bind_some, show toString p.span = p.span.repr from rfl, Nat.toNat?_repr]
    rfl
  · have hone : p.span = 1 := by omega
    rw [hone]
    rfl

theorem yields_tableRow (columns : Nat) (tag : Tag) (row : Row Part) :
    Yields (List.filterMap Fragment.cellColumns? · = [(row.place columns).map fun p => (p.column - row.gap, p.span)])
      (tableRow columns tag row) := by
  have hcells : Yields (List.map Fragment.span · = (row.place columns).map Placement.span)
      (inOrder ((row.place columns).map (placedCell tag))) :=
    yields_inOrder rfl (fun _ _ => List.map_append) fun p hp => yields_placedCell tag (Row.mem_place hp).2
  refine hcells.andThen fun cells hc => .done ?_
  have hrow : (Fragment.element .tr [] cells).cellColumns? =
      some ((row.place columns).map fun p => (p.column - row.gap, p.span)) := by
    rw [Fragment.cellColumns?, hc, Row.successive_place]
  rw [List.filterMap_cons_some hrow]
  rfl

theorem yields_table (t : Table Part) :
    Yields (fun l => ∃ f, l = [f] ∧ f.rowColumns = t.allRows.map fun row =>
      (row.place t.columns.toNat).map fun p => (p.column - row.gap, p.span)) (table t) := by
  have hrows (tag : Tag) (rows : List (Row Part)) := yields_inOrder (g := List.filterMap Fragment.cellColumns?) rfl
    (fun _ _ => List.filterMap_append) fun row (_ : row ∈ rows) => yields_tableRow t.columns.toNat tag row
  have hparts := (hrows .th t.headers).andThen fun headers hh => (hrows .td t.rows).andThen fun rows hr =>
    Yields.done (P := fun parts => parts.filterMap Fragment.cellColumns? = t.allRows.map fun row =>
      (row.place t.columns.toNat).map fun p => (p.column - row.gap, p.span))
      (a := (t.caption.map fun c => wrap .caption [.text c]).toList ++ headers ++ rows) (by
        rw [List.filterMap_append, List.filterMap_append, hh, hr, Table.allRows, List.map_append]
        cases t.caption <;> rfl)
  exact hparts.andThen fun parts hp => .done ⟨_, rfl, hp⟩

/-- The cells of a table are counted from the front of each row, without the absent entries that stand there. -/
theorem rowColumns_of_node {s : Scope} {T : Table Node} {l : List Fragment} {t t' : Traversal}
    (h : node s (.table T) t = .ok (l, t')) : ∃ f, l = [f] ∧ f.rowColumns = T.allRows.map fun row =>
      (row.place T.columns.toNat).map fun p => (p.column - row.gap, p.span) := by
  rw [node_table] at h
  obtain ⟨f, hl, hf⟩ := (yields_table (T.map (node s))).visit t l t' h
  refine ⟨f, hl, hf.trans ?_⟩
  rw [Table.allRows_map, List.map_map]
  refine List.map_congr_left fun row _ => ?_
  show ((Row.map (node s) row).place T.columns.toNat).map _ = _
  rw [Row.place_map, Row.gap_map, List.map_map]
  rfl

end Html

end XamlDoc
