import Mathlib
import XamlDoc.Proofs.Render.Balance

/-!
# Cells of grids

The rows and columns of a grid are declared before its first cell is laid out. Whatever is laid out, the cells have
room in the grid and do not overlap: they are placed row by row, and in a row from left to right.
-/

namespace XamlDoc

open Markup Gauged
open Markup.Content (allCalls allCalls_append allNamed allNamed_append allNamed_singleton named named_of_ne)

/-! ### Places -/

/-- Some columns in one row of a grid. -/
structure CellPlace where
  row : Nat
  column : Nat
  /-- The number of columns covered. -/
  span : Nat
  deriving DecidableEq, Repr

namespace CellPlace

def Covers (p : CellPlace) (row column : Nat) : Prop :=
  row = p.row ∧ p.column ≤ column ∧ column < p.column + p.span

def Apart (p q : CellPlace) : Prop := ∀ row column, p.Covers row column → ¬ q.Covers row column

/-- Places in the first `columns` columns of `rows` rows from `first` on. No two of them overlap. -/
structure Laid (columns first rows : Nat) (places : List CellPlace) : Prop where
  inside {p : CellPlace} : p ∈ places → first ≤ p.row ∧ p.row < first + rows ∧ p.column + p.span ≤ columns
  apart : places.Pairwise Apart

theorem Laid.nil (columns first : Nat) : Laid columns first 0 [] := ⟨(fun h => by cases h), .nil⟩

theorem Laid.append {columns first m n : Nat} {a b : List CellPlace} (ha : Laid columns first m a)
    (hb : Laid columns (first + m) n b) : Laid columns first (m + n) (a ++ b) := by
  refine ⟨fun {p} hp => ?_, List.pairwise_append.2 ⟨ha.apart, hb.apart, fun p hp q hq row column h h' => ?_⟩⟩
  · rcases List.mem_append.1 hp with hp | hp
    · have h := ha.inside hp
      omega
    · have h := hb.inside hp
      omega
  · -- the rows of `b` are below those of `a`
    have hr := ha.inside hp
    have hr' := hb.inside hq
    have he := h.1
    have he' := h'.1
    omega

/-- Places in one row, from left to right. -/
theorem Laid.row {columns row : Nat} {places : List CellPlace}
    (hi : ∀ p ∈ places, p.row = row ∧ p.column + p.span ≤ columns)
    (hp : places.Pairwise fun p q => p.column + p.span ≤ q.column) : Laid columns row 1 places := by
  refine ⟨fun {p} hm => ?_, hp.imp fun hpq _ column h h' => ?_⟩
  · have h := hi p hm
    omega
  · have hc := h.2.2
    have hc' := h'.2.1
    omega

end CellPlace

open CellPlace (Laid)

/-- The places of a row of a table. -/
def Row.places {ν : Type} (columns row : Nat) (cells : Row ν) : List CellPlace :=
  (cells.place columns).map fun p => ⟨row, p.column, p.span⟩

theorem Row.laid {ν : Type} (columns row : Nat) (cells : Row ν) : Laid columns row 1 (cells.places columns row) := by
  refine Laid.row (fun p hp => ?_) (List.pairwise_map.2 (placeFrom_pairwise 0 columns cells))
  obtain ⟨q, hq, rfl⟩ := List.mem_map.1 hp
  exact ⟨rfl, (mem_place hq).1⟩

/-! ### Cells -/

/-- An element that is attached to a place. It covers one column unless it says how many. -/
structure GridCell extends CellPlace where
  element : Element
  row_eq : element.attr? "Grid.Row" = some (toString row)
  column_eq : element.attr? "Grid.Column" = some (toString column)
  span_eq : (element.attr? "Grid.ColumnSpan").getD "1" = toString span

/-- How many of the elements in an element have the name. -/
def Markup.Element.count (e : Element) (name : String) : Nat := e.elements.countP fun c => c.name = name

/-- A grid is its columns, its rows and its cells. The cells lie on the columns and rows, each apart from the others. -/
structure Tiling (grid : Element) where
  columns : Element
  rows : Element
  cells : List GridCell
  children : grid.children = columns.toContent :: rows.toContent :: cells.map fun c => c.element.toContent
  columns_name : columns.name = "Grid.ColumnDefinitions"
  rows_name : rows.name = "Grid.RowDefinitions"
  row_lt : ∀ c ∈ cells, c.row < rows.count "RowDefinition"
  column_le : ∀ c ∈ cells, c.column + c.span ≤ columns.count "ColumnDefinition"
  apart : cells.Pairwise fun a b => a.toCellPlace.Apart b.toCellPlace

/-- Every grid in some contents is tiled. -/
def Tiles (k : List Content) : Prop := ∀ grid ∈ allNamed "Grid" k, Nonempty (Tiling grid)

theorem tiles_append {k l : List Content} (hk : Tiles k) (hl : Tiles l) : Tiles (k ++ l) := by
  intro grid hg
  rw [allNamed_append] at hg
  exact (List.mem_append.1 hg).elim (hk grid) (hl grid)

theorem tiles_of_allNamed {k l : List Content} (h : allNamed "Grid" k = allNamed "Grid" l) (hl : Tiles l) :
    Tiles k := by
  rwa [Tiles, h]

theorem tiles_of_avoids {names : List String} (hn : "Grid" ∈ names) {k : List Content}
    (h : Avoids names (allCalls k)) : Tiles k := by
  rw [Tiles, allNamed_of_avoids hn h]
  exact fun grid hg => by cases hg

theorem tiles_element {t : Tag} (hn : t.name ≠ "Grid") {k : List Content} (hk : Tiles k) :
    Tiles [.element t.name t.attributes k] := by
  refine tiles_of_allNamed ?_ hk
  rw [allNamed_singleton, named_of_ne hn]

/-- Contents that are cells at these places. -/
def CellsAt (places : List CellPlace) (k : List Content) : Prop :=
  Tiles k ∧ ∃ cells : List GridCell,
    k = cells.map (fun c => c.element.toContent) ∧ cells.map GridCell.toCellPlace = places

theorem cellsAt_nil : CellsAt [] [] := ⟨(fun _ hg => by cases hg), [], rfl, rfl⟩

theorem CellsAt.append {a b : List CellPlace} {k l : List Content} (ha : CellsAt a k) (hb : CellsAt b l) :
    CellsAt (a ++ b) (k ++ l) := by
  obtain ⟨hk, cells, rfl, rfl⟩ := ha
  obtain ⟨hl, cells', rfl, rfl⟩ := hb
  exact ⟨tiles_append hk hl, cells ++ cells', (List.map_append ..).symm, List.map_append ..⟩

theorem cellsAt_singleton (c : GridCell) (hn : c.element.name ≠ "Grid") (hk : Tiles c.element.children) :
    CellsAt [c.toCellPlace] [c.element.toContent] :=
  ⟨tiles_element (t := ⟨c.element.name, c.element.attributes⟩) hn hk, [c], rfl, rfl⟩

/-- Contents that are the cells of some rows. -/
def CellsOf (columns first rows : Nat) (k : List Content) : Prop :=
  ∃ places, Laid columns first rows places ∧ CellsAt places k

theorem CellsOf.append {columns first m n : Nat} {k l : List Content} (hk : CellsOf columns first m k)
    (hl : CellsOf columns (first + m) n l) : CellsOf columns first (m + n) (k ++ l) := by
  obtain ⟨a, ha, hk⟩ := hk
  obtain ⟨b, hb, hl⟩ := hl
  exact ⟨a ++ b, ha.append hb, hk.append hl⟩

/-- Attributes that place an element, after some that have nothing to do with the grid. -/
theorem exists_cell (name : String) (frame rest : List Attribute) (column row span : Nat)
    (hf : ∀ a ∈ frame, a.1 ∉ ["Grid.Row", "Grid.Column", "Grid.ColumnSpan"])
    (hs : (rest.lookup "Grid.ColumnSpan").getD "1" = toString span) (k : List Content) :
    ∃ c : GridCell, c.element = ⟨name, frame ++ Layout.cellPlace column row ++ rest, k⟩ ∧
      c.toCellPlace = ⟨row, column, span⟩ := by
  have ha {key : String} (hk : key ∈ ["Grid.Row", "Grid.Column", "Grid.ColumnSpan"]) :
      (frame ++ Layout.cellPlace column row ++ rest).lookup key =
        (Layout.cellPlace column row ++ rest).lookup key := by
    have hn : frame.lookup key = none := by
      refine List.lookup_eq_none_iff.2 fun a hm => bne_iff_ne.2 ?_
      rintro rfl
      exact hf a hm hk
    rw [List.append_assoc, List.lookup_append, hn]
    rfl
  exact ⟨⟨⟨row, column, span⟩, ⟨name, _, k⟩, ha (by simp), ha (by simp),
    (congrArg (·.getD "1") (ha (by simp))).trans hs⟩, rfl, rfl⟩

/-! ### Grids -/

def columnDefinitions (columns : List String) : Element :=
  ⟨"Grid.ColumnDefinitions", [], columns.map fun w => .element "ColumnDefinition" [("Width", w)] []⟩

def rowDefinitions (rows : Nat) : Element :=
  ⟨"Grid.RowDefinitions", [], List.replicate rows (.element "RowDefinition" [("Height", "Auto")] [])⟩

theorem count_columnDefinitions (columns : List String) :
    (columnDefinitions columns).count "ColumnDefinition" = columns.length := by
  simp [Element.count, Element.elements, columnDefinitions, List.filterMap_map, Content.element?, Function.comp_def]

theorem count_rowDefinitions (rows : Nat) : (rowDefinitions rows).count "RowDefinition" = rows := by
  simp [Element.count, Element.elements, rowDefinitions, List.filterMap_replicate, Content.element?,
    List.countP_replicate]

theorem gridDefinitions_eq (columns : List String) (rows : Nat) : Layout.gridDefinitions columns rows =
    allCalls [(columnDefinitions columns).toContent, (rowDefinitions rows).toContent] := by
  have hc : columns.flatMap (Layout.definition "ColumnDefinition" "Width") =
      allCalls (columnDefinitions columns).children := by
    induction columns with
    | nil => rfl
    | cons w r ih =>
      rw [List.flatMap_cons, ih]
      rfl
  have hr : (List.replicate rows (Layout.definition "RowDefinition" "Height" "Auto")).flatten =
      allCalls (rowDefinitions rows).children := by
    induction rows with
    | zero => rfl
    | succ rows ih =>
      rw [List.replicate_succ, List.flatten_cons, ih]
      rfl
  rw [Layout.gridDefinitions, hc, hr]
  simp [allCalls, Content.calls, Call.ofTag, Element.toContent, columnDefinitions, rowDefinitions]

/-- Cells in as many rows as are declared, and on the declared columns, make a tiled grid. -/
theorem tiles_grid (spacing : String) {columns : List String} {rows : Nat} {k : List Content}
    (h : CellsOf columns.length 0 rows k) :
    Tiles [.element "Grid" (Layout.gridTag spacing).attributes
      ((columnDefinitions columns).toContent :: (rowDefinitions rows).toContent :: k)] := by
  obtain ⟨places, hl, hk, cells, rfl, rfl⟩ := h
  intro grid hg
  have hp := Layout.gridDefinitions_plain columns rows
  rw [gridDefinitions_eq] at hp
  have hd : allNamed "Grid" [(columnDefinitions columns).toContent, (rowDefinitions rows).toContent] = [] :=
    allNamed_of_avoids (by simp) hp
  rw [allNamed_singleton, named, if_pos rfl] at hg
  rcases List.mem_cons.1 hg with rfl | hg
  · have hi {c : GridCell} (hc : c ∈ cells) := hl.inside (List.mem_map_of_mem hc)
    refine ⟨⟨columnDefinitions columns, rowDefinitions rows, cells, rfl, rfl, rfl, fun c hc => ?_, fun c hc => ?_,
      List.pairwise_map.1 hl.apart⟩⟩
    · rw [count_rowDefinitions, ← Nat.zero_add rows]
      exact (hi hc).2.1
    · rw [count_columnDefinitions]
      exact (hi hc).2.2
  · -- the others are in its cells
    have ha := allNamed_append "Grid" [(columnDefinitions columns).toContent, (rowDefinitions rows).toContent]
      (cells.map fun c => c.element.toContent)
    rw [hd, List.nil_append] at ha
    exact hk grid (ha ▸ hg)

/-- The grid of a table, around its cells. -/
def tableGrid {ν : Type} (t : Table ν) (cells : List Content) : Element :=
  ⟨"Grid", (Layout.gridTag "-2").attributes,
    (columnDefinitions (List.replicate t.columns.toNat "Auto")).toContent ::
      (rowDefinitions t.allRows.length).toContent :: cells⟩

/-! ### Renderings -/

section

variable {σ : Type} [Writer σ] [Gauged σ]

/-- On a working writer, a run that ends well writes contents with the property `K`. -/
def Writes (σ : Type) [Writer σ] [Gauged σ] (K : List Content → Prop) (α : Type) (m : Rendering α) : Prop :=
  ∀ (p : Progress) (w : σ), Works w → ∀ r, (Writing.run (m p) w).1 = .ok r →
    ∃ k, Writing.made (m p) w = allCalls k ∧ K k

namespace Writes

variable {α β : Type} {K L : List Content → Prop}

theorem mono {m : Rendering α} (hm : Writes σ K α m) (h : ∀ k, K k → L k) : Writes σ L α m := by
  intro p w hw r hr
  obtain ⟨k, hk, hK⟩ := hm p w hw r hr
  exact ⟨k, hk, h k hK⟩

theorem quiet {m : Rendering α} (h : ∀ p, ∃ r, m p = .done r) (hK : K []) : Writes σ K α m := by
  intro p w _ r _
  obtain ⟨r, hr⟩ := h p
  rw [hr]
  exact ⟨[], rfl, hK⟩

theorem bind {M : List Content → Prop} {m : Rendering α} {f : α → Rendering β} (hm : Writes σ K α m)
    (hf : ∀ a, Writes σ L β (f a)) (h : ∀ {k l}, K k → L l → M (k ++ l)) : Writes σ M β (m >>= f) := by
  intro p w hw r hr
  obtain ⟨a, q, ha, hb⟩ := Rendering.ok_of_run_bind hr
  obtain ⟨k, hk, hK⟩ := hm p w hw _ ha
  obtain ⟨l, hl, hL⟩ := hf a q _ (works_run (m p) hw) r hb
  exact ⟨k ++ l, by rw [(Rendering.run_bind_ok ha f).2, hk, hl, allCalls_append], h hK hL⟩

theorem emit {k : List Content} (hk : K k) : Writes σ K Unit (Rendering.emit (allCalls k)) := by
  intro p w hw r _
  have ha := accepted_allCalls hw k
  exact ⟨k, (Rendering.run_ofWriting ha.answer p).2.trans ha.made, hk⟩

/-- What is written between calls that open elements and a writing that closes them. -/
theorem enclosed {p : Progress} {w : σ} (hw : Works w) {n : Nat} {start : List Call} (hs : Opening n start)
    {finish : Writing (Except WriteError Unit)} (hf : Closes σ (Writer.depth w) n finish)
    {content : Rendering Unit} (hc : Writes σ K Unit content) {r : Unit × Progress} :
    let m : Rendering Unit := do
      Rendering.emit start
      content
      Rendering.ofWriting finish
    (Writing.run (m p) w).1 = .ok r →
      ∃ k, Writing.made (m p) w = start ++ (allCalls k ++ List.replicate n .close) ∧ K k := by
  intro m hr
  have hrun := (Rendering.run_ofWriting (hs.accepted hw).answer p).1
  obtain ⟨a, q, ha, hr⟩ := Rendering.ok_of_run_bind hr
  obtain rfl : p = q := (Prod.mk.inj (Except.ok.inj ((congrArg Prod.fst hrun).symm.trans ha))).2
  rw [Rendering.emit, congrArg Prod.snd hrun] at hr
  obtain ⟨a, q, hq, -⟩ := Rendering.ok_of_run_bind hr
  obtain ⟨k, hk, hK⟩ := hc p _ (works_run _ hw) _ hq
  exact ⟨k, (Rendering.run_enclosed hw hs hf hq hk).2, hK⟩

theorem element {t : Tag} (ht : DistinctNames t.attributes) {content : Rendering Unit}
    (hc : Writes σ K Unit content) (h : ∀ k, K k → L [.element t.name t.attributes k]) :
    Writes σ L Unit (Rendering.element t content) := by
  intro p w hw r hr
  obtain ⟨k, hk, hK⟩ := enclosed hw (Opening.ofTag ht) (closes_one _) hc hr
  exact ⟨_, hk.trans (by simp [allCalls, Content.calls]), h k hK⟩

theorem visit {m : Rendering Unit} (hm : Writes σ K Unit m) : Writes σ K Unit (Rendering.visit m) := by
  intro p w hw r hr
  have hv := Rendering.visit_of_ok hr
  rw [hv] at hr ⊢
  exact hm _ w hw r hr

theorem flush_gridless (profile : Profile) :
    Writes σ (allNamed "Grid" · = []) Unit (Rendering.flush profile) := by
  intro p w hw r hr
  have hf : Rendering.flush profile p = Rendering.emit (p.runs.calls profile) ⟨p.traversal, ∅⟩ := rfl
  obtain ⟨k, hk, -⟩ := p.runs.calls_whole profile
  have hg := p.runs.calls_gridless profile
  rw [hk] at hg
  rw [hf, hk] at hr ⊢
  exact emit (allNamed_of_avoids (List.mem_singleton_self _) hg) _ w hw r hr

theorem flush (profile : Profile) : Writes σ Tiles Unit (Rendering.flush profile) :=
  (flush_gridless profile).mono fun _ hk => tiles_of_allNamed (l := []) hk cellsAt_nil.1

theorem composable (d : Dialect) : Composable d (fun _ => ([] : List String)) fun α m _ => Writes σ Tiles α m where
  done a := quiet (fun p => ⟨_, rfl⟩) cellsAt_nil.1
  andThen hm hf := hm.bind hf tiles_append
  append r a := quiet (fun p => ⟨_, rfl⟩) cellsAt_nil.1
  comment t := quiet (fun p => ⟨_, rfl⟩) cellsAt_nil.1
  flush := flush _
  whole hc hp := by
    obtain ⟨k, rfl, -⟩ := hc
    exact emit (tiles_of_avoids (by simp) hp)
  element {t content k} ht hn hc := hc.element ht fun k hk => tiles_element (fun h => hn (by simp [h])) hk

/-! ### Rows -/

theorem cell {t : Tag} (ht : DistinctNames t.attributes) (hn : t.name ≠ "Grid") {place : CellPlace}
    (hp : ∀ k, ∃ c : GridCell, c.element = ⟨t.name, t.attributes, k⟩ ∧ c.toCellPlace = place)
    {content : Rendering Unit} (hc : Writes σ Tiles Unit content) :
    Writes σ (CellsAt [place]) Unit (Rendering.element t content) := by
  refine hc.element ht fun k hk => ?_
  obtain ⟨c, he, rfl⟩ := hp k
  have h := cellsAt_singleton c
  rw [he] at h
  exact h hn hk

theorem inOrder {ι : Type} {items : List ι} {f : ι → Rendering Unit} {place : ι → CellPlace}
    (hf : ∀ i ∈ items, Writes σ (CellsAt [place i]) Unit (f i)) :
    Writes σ (CellsAt (items.map place)) Unit (Layout.inOrder (items.map f)) := by
  induction items with
  | nil => exact quiet (fun p => ⟨_, rfl⟩) cellsAt_nil
  | cons i r ih =>
    exact (hf i (List.mem_cons_self ..)).bind (fun _ => ih fun j hj => hf j (List.mem_cons_of_mem i hj))
      CellsAt.append

theorem inRows {α : Type} {items : List α} {f : Nat → α → Rendering Unit} {columns first : Nat}
    (hf : ∀ row, ∀ i ∈ items, Writes σ (CellsOf columns (first + row) 1) Unit (f row i)) :
    Writes σ (CellsOf columns first items.length) Unit (Layout.inRows f items) := by
  induction items generalizing f first with
  | nil => exact quiet (fun p => ⟨_, rfl⟩) ⟨[], .nil columns first, cellsAt_nil⟩
  | cons i r ih =>
    rw [Layout.inRows, List.mapIdx_cons, List.length_cons, Nat.add_comm r.length]
    have hr : Writes σ (CellsOf columns (first + 1) r.length) Unit (Layout.inRows (fun row => f (row + 1)) r) := by
      refine ih fun row j hj => ?_
      rw [Nat.add_assoc, Nat.add_comm 1]
      exact hf (row + 1) j (List.mem_cons_of_mem i hj)
    exact (hf 0 i (List.mem_cons_self ..)).bind (fun _ => hr) CellsOf.append

theorem grid (spacing : String) {columns : List String} {rows : Nat} {cells : Rendering Unit}
    (hc : Writes σ (CellsOf columns.length 0 rows) Unit cells) :
    Writes σ Tiles Unit (Layout.grid spacing columns rows cells) := by
  have hd : Writes σ (· = [(columnDefinitions columns).toContent, (rowDefinitions rows).toContent]) Unit
      (Rendering.emit (Layout.gridDefinitions columns rows)) := by
    rw [gridDefinitions_eq]
    exact emit rfl
  have hg : Writes σ (fun k => Tiles [.element "Grid" (Layout.gridTag spacing).attributes k]) Unit (do
      Rendering.emit (Layout.gridDefinitions columns rows)
      cells) :=
    hd.bind (fun _ => hc) fun hk hl => by
      subst hk
      exact tiles_grid spacing hl
  rw [grid_eq_element]
  exact hg.element (Layout.gridTag_distinct spacing) fun k hk => hk

/-! ### Layouts -/

section

variable {d : Dialect}

theorem laid_pair (row : Nat) : Laid 2 row 1 ([⟨row, 0, 1⟩] ++ [⟨row, 1, 1⟩]) :=
  Laid.row (by simp) (by simp)

theorem listRow (st : Style) (row : Nat) {item : Layout.Marked}
    (hi : Writes σ Tiles Unit (item.part.render st)) :
    Writes σ (CellsOf 2 row 1) Unit (Layout.listRow d st row item) := by
  have hd := composable (σ := σ) d
  have hm : Writes σ (CellsAt [⟨row, 0, 1⟩]) Unit (Rendering.element ⟨"ContentView",
      ("Padding", d.spacing (.listMarker item.part.margins.top item.part.margins.bottom)) :: Layout.cellPlace 0 row⟩
      (Rendering.leaf ⟨"Label", if item.marker = "" then [] else [("Text", item.marker)]⟩)) := by
    refine cell (by simp [DistinctNames, Layout.cellPlace_names]) (by simp)
      (exists_cell _ [_] [] 0 row 1 (by simp) rfl) (hd.leaf ?_ (by simp))
    split <;> simp [DistinctNames]
  have hp : Writes σ (CellsAt [⟨row, 1, 1⟩]) Unit (Rendering.element
      ⟨d.stack.name, d.stack.attributes ++ Layout.cellPlace 1 row⟩ (Layout.flushed d (item.part.render st))) := by
    have hs : d.stack.name ≠ "Grid" := fun h => stack_name d (by simp [h])
    refine cell (t := ⟨_, _⟩) (Layout.stackCell_distinct d 1 row) hs (fun k => ?_) (hd.flushed (k := []) hi)
    have hc := exists_cell d.stack.name d.stack.attributes [] 1 row 1 ?_ rfl k
    · rwa [List.append_nil] at hc
    · rcases d with ⟨_ | _, p⟩ <;> simp [Dialect.stack]
  exact (hm.bind (fun _ => hp) CellsAt.append).mono fun k hk => ⟨_, laid_pair row, hk⟩

theorem list {ι : Type} {items : List ι} (st : Style) {e : ι → Layout.Marked}
    (hi : ∀ i ∈ items, Writes σ Tiles Unit ((e i).part.render st)) :
    Writes σ Tiles Unit (Layout.list d st (items.map e)) := by
  refine (composable d).padded (k := []) (grid "0" (inRows fun row m hm => ?_)) _ _
  obtain ⟨i, hi', rfl⟩ := List.mem_map.1 hm
  rw [Nat.zero_add]
  exact listRow st row (hi i hi')

theorem footnoteRow (row : Nat) {content : Rendering Unit} (hc : Writes σ Tiles Unit content) :
    Writes σ (CellsOf 2 row 1) Unit (Layout.footnoteRow d row content) := by
  have hd := composable (σ := σ) d
  have hn : Writes σ (CellsAt [⟨row, 0, 1⟩]) Unit (Rendering.element ⟨"ContentView",
      ("Margin", d.spacing .footnoteNumber) :: Layout.cellPlace 0 row
        ++ [("Scale", Text.decimal d.profile.superscriptScale),
          ("TranslationY", toString d.profile.superscriptOffset.toInt)]⟩
      (Rendering.leaf ⟨"Label", [("Text", toString (row + 1))]⟩)) := by
    refine cell (by simp [DistinctNames, Layout.cellPlace_names]) (by simp)
      (exists_cell _ [_] [_, _] 0 row 1 (by simp) rfl) (hd.leaf (by simp [DistinctNames]) (by simp))
  have hp : Writes σ (CellsAt [⟨row, 1, 1⟩]) Unit
      (Rendering.element ⟨"ContentView", Layout.cellPlace 1 row⟩ (Layout.stacked d content)) :=
    cell (by simp [DistinctNames, Layout.cellPlace_names]) (by simp)
      (exists_cell _ [] [] 1 row 1 (by simp) rfl) (hd.stacked (k := []) hc)
  exact (hn.bind (fun _ => hp) CellsAt.append).mono fun k hk => ⟨_, laid_pair row, hk⟩

theorem footnotes {ι : Type} {items : List ι} {f : ι → Rendering Unit}
    (hf : ∀ i ∈ items, Writes σ Tiles Unit (f i)) :
    Writes σ Tiles Unit (Layout.footnotes d (items.map f)) := by
  have hd := composable (σ := σ) d
  refine hd.before (k := []) hd.rule (grid "0" (inRows fun row m hm => ?_))
  obtain ⟨i, hi, rfl⟩ := List.mem_map.1 hm
  rw [Nat.zero_add]
  exact footnoteRow row (hf i hi)

/-! ### Tables -/

variable {ν : Type} {part : ν → Part} {t : Table Part}

theorem placedCell (st : Style) (row : Nat) {p : Placement ν} (hs : 0 < p.span)
    (hp : ∀ n ∈ p.contents, ∀ a, Writes σ Tiles Unit ((part n).render { st with alignment := a })) :
    Writes σ (CellsAt [⟨row, p.column, p.span⟩]) Unit (Layout.placedCell d t st row (p.map part)) := by
  rw [Layout.placedCell_eq]
  refine cell (Layout.cellTag_distinct d row _) (by simp [Layout.cellTag]) (exists_cell _ _ _ _ row _ ?_ ?_)
    ((composable d).cellContent (g := fun _ => []) t st hp)
  · intro a ha
    have hn := (Layout.tableCellFrame_sublist d row).subset (List.mem_map_of_mem ha)
    have hd : ∀ name ∈ ["Style", "Padding", "BorderColor", "BackgroundColor"],
        name ∉ ["Grid.Row", "Grid.Column", "Grid.ColumnSpan"] := by decide
    exact hd _ hn
  · show ((if p.span > 1 then [("Grid.ColumnSpan", toString p.span)] else []).lookup _).getD "1" = _
    split
    · rfl
    · have h1 : p.span = 1 := by omega
      rw [h1]
      rfl

theorem tableRow (t : Table Part) (row : Nat) {cells : Row ν}
    (hc : ∀ n ∈ cells.placed t.columns.toNat, ∀ header a,
      Writes σ Tiles Unit ((part n).render { Style.plain with bold := header, alignment := a })) :
    Writes σ (CellsAt (cells.places t.columns.toNat row)) Unit (Layout.tableRow d t row (cells.map part)) := by
  rw [Layout.tableRow_eq, Row.place_map, List.map_map]
  have hr : Writes σ (CellsAt (cells.places t.columns.toNat row)) Unit (Layout.inOrder
      ((cells.place t.columns.toNat).map fun p => Layout.placedCell d t
        { Style.plain with bold := row < t.headers.length } row (p.map part))) :=
    inOrder fun p hp => placedCell _ row (Row.mem_place hp).2 fun n hn a => hc n (List.mem_flatMap.2 ⟨p, hp, hn⟩) _ a
  exact hr

/-- What stands around the rows of a table brings no grids but the one of the rows. -/
theorem aroundRows {t : Table ν}
    (hc : Writes σ K Unit (Layout.inRows (Layout.tableRow d (t.map part)) (t.map part).allRows)) :
    Writes σ (fun k => ∃ cells, K cells ∧ allNamed "Grid" k = allNamed "Grid" [(tableGrid t cells).toContent]) Unit
      (Layout.table d (t.map part)) := by
  rw [Layout.table_eq]
  intro p w hw r hr
  obtain ⟨n, hn⟩ := Layout.tableFrame_opening d (t.map part)
  have hs := hn.append (Layout.gridStart_opening "-2" (List.replicate t.columns.toNat "Auto")
    (t.map part).allRows.length)
  obtain ⟨k, hk, hK⟩ := enclosed hw hs (closes_closeTo (Writer.depth w) _) hc hr
  -- the grid is closed first, then what stands around it
  obtain ⟨k', hk', hn⟩ := hn.allNamed_around (List.mem_cons_of_mem _ (List.mem_singleton_self "Grid"))
    (Layout.tableFrame_plain d _) [(tableGrid t k).toContent]
  refine ⟨k', ?_, k, hK, hn⟩
  have hrows : (t.map part).allRows.length = t.allRows.length := by rw [Table.allRows_map, List.length_map]
  rw [← hk']
  refine hk.trans ?_
  rw [Layout.gridStart_eq, gridDefinitions_eq, hrows]
  simp [allCalls, Content.calls, List.replicate_succ, Layout.gridTag, Call.ofTag, tableGrid, Element.toContent]

theorem table {t : Table ν} (ht : ∀ n ∈ t.placed, ∀ header a,
      Writes σ Tiles Unit ((part n).render { Style.plain with bold := header, alignment := a })) :
    Writes σ Tiles Unit (Layout.table d (t.map part)) := by
  have hc : Writes σ (CellsOf t.columns.toNat 0 (t.map part).allRows.length) Unit
      (Layout.inRows (Layout.tableRow d (t.map part)) (t.map part).allRows) := by
    refine inRows fun row cells hm => ?_
    rw [Table.allRows_map] at hm
    obtain ⟨cells, hcells, rfl⟩ := List.mem_map.1 hm
    rw [Nat.zero_add]
    have hr := tableRow (d := d) (t.map part) row fun n hn => ht n (List.mem_flatMap.2 ⟨cells, hcells, hn⟩)
    exact hr.mono fun k hk => ⟨_, Row.laid _ row cells, hk⟩
  refine (aroundRows hc).mono fun k hk => ?_
  obtain ⟨cells, hK, hn⟩ := hk
  rw [← List.length_replicate (n := t.columns.toNat) (a := "Auto"), Table.allRows_map, List.length_map] at hK
  exact tiles_of_allNamed hn (tiles_grid "-2" hK)

theorem compositional (d : Dialect) :
    Compositional d (fun _ => ([] : List String)) fun α m _ => Writes σ Tiles α m :=
  { composable d with list := fun st _ hi => list st hi, table := table, footnotes := footnotes }

end

/-! ### Documents -/

theorem offered {x : Extensions} (hx : x.BuiltIn) {handler : HandlerContext → Writing Handled}
    (ho : x.Offers handler) (s : Scope) (alignment : Alignment) {fallback : List String → Rendering Unit}
    (hf : ∀ messages, Writes σ Tiles Unit (fallback messages)) :
    Writes σ Tiles Unit (Render.offered handler s alignment fallback) := by
  obtain ⟨item, rfl⟩ := hx.offers ho
  intro p w hw r hr
  obtain ⟨⟨k, hk, -⟩, hd, -, he⟩ := imageHandler_run item ⟨alignment, s.dialect⟩ hw
  have hp : Plain (allCalls k) := hk ▸ imageHandler_plain item _ hw
  have hw' := works_run (imageHandler item ⟨alignment, s.dialect⟩) hw
  rw [Render.offered_apply] at hr ⊢
  simp only [Writing.run, Writing.run_bind, Writing.made_askDepth, Writing.made_bind, hk] at hr ⊢
  generalize (imageHandler item ⟨alignment, s.dialect⟩).run w = h at hr hd he hw' ⊢
  obtain ⟨⟨result, cancels⟩, w'⟩ := h
  have hle : Writer.depth w' ≤ Writer.depth w := Nat.le_of_eq hd
  cases result with
  | error e => exact (he e rfl).elim
  | ok outcome =>
    have ht : Tiles k := tiles_of_avoids (by simp) hp
    cases outcome with
    | rendered =>
      refine ⟨k, ?_, ht⟩
      rw [Writing.made_bind, Writing.made_closeTo_of_le hle, Writing.run_closeTo_of_le hle]
      exact List.append_nil _
    | declined =>
      -- nothing was left open, so the fallback starts where the handler stopped
      simp only [Writing.run_bind, Writing.made_bind, Writing.run_closeTo_of_le hle,
        Writing.made_closeTo_of_le hle, List.nil_append] at hr ⊢
      obtain ⟨l, hl, htl⟩ := hf [] _ w' hw' r hr
      exact ⟨k ++ l, by rw [hl, allCalls_append], tiles_append ht htl⟩

theorem closed {setting : Setting} (hx : setting.extensions.BuiltIn) :
    Closed setting (fun α m => Writes σ Tiles α m) fun _ _ => True where
  toCompositional := compositional setting.dialect
  passes := Html.closed_true
  visit hm := hm.visit
  cancelIf _ _ := quiet (fun _ => ⟨_, rfl⟩) cellsAt_nil.1
  tooDeep := quiet (fun _ => ⟨_, rfl⟩) cellsAt_nil.1
  ofPass _ := quiet (Rendering.ofPass_eq_done _) cellsAt_nil.1
  askNumbering hf p w hw r hr := hf _ p w hw r hr
  setNumbering _ := quiet (fun _ => ⟨_, rfl⟩) cellsAt_nil.1
  offered ho hf := offered hx ho _ _ hf

end Writes

end

/-- Whatever scripts and emoji come to, every grid in the tree of a document is tiled by its cells. -/
theorem renderUntil_tiles_grids {setting : Setting} (hx : setting.extensions.BuiltIn) (limit : Nat) (d : Document)
    (inclusion : Bool) (fuse? : Option Nat)
    (hr : ((renderUntil setting limit d inclusion fuse?).run TreeBuilder.empty).1 = .ok ()) :
    ∀ grid ∈ allNamed "Grid" ((renderUntil setting limit d inclusion fuse?).run TreeBuilder.empty).2.finish,
      Nonempty (Tiling grid) := by
  have hd : Writes TreeBuilder Tiles Unit (Render.document setting limit d inclusion) :=
    (Writes.closed hx).document limit d inclusion
  rw [renderUntil, run_renderFrom] at hr ⊢
  cases hm : (Writing.run (Render.document setting limit d inclusion ⟨.start fuse?, ∅⟩) TreeBuilder.empty).1 with
  | error e =>
    rw [hm, run_unwound_error] at hr
    cases hr
  | ok r =>
    obtain ⟨k, hk, ht⟩ := hd _ TreeBuilder.empty trivial r hm
    show ∀ grid ∈ allNamed "Grid" (Writing.run (Render.document setting limit d inclusion ⟨.start fuse?, ∅⟩)
      TreeBuilder.empty).2.finish, _
    rw [Writing.run_eq_after, hk, TreeBuilder.finish_allCalls]
    exact ht

/-- A table with a cell that spans two columns and a list in another, and a footnote. -/
def tabledDocument : Document :=
  let table := { (Table.ofColumns 3 : Table Node) with
    headers := [[some ⟨.paragraph [.text "a"], none⟩, none]]
    rows := [[none, some ⟨.bulletList [.text "b", .text "c"], none⟩]] }
  (Document.ofNodes [.table table, .paragraph [.footnoteReference "n" false]]).withFootnote "n" [.text "d"]

theorem renderUntil_tiles_grids_tabled :
    let m := renderUntil ⟨.ofKind .maui, .standard⟩ 4 tabledDocument true none
    (m.run TreeBuilder.empty).1 = .ok () ∧
      (allNamed "Grid" (m.run TreeBuilder.empty).2.finish).length = 3 ∧
      ∀ grid ∈ allNamed "Grid" (m.run TreeBuilder.empty).2.finish, Nonempty (Tiling grid) := by
  have hr : ((renderUntil ⟨.ofKind .maui, .standard⟩ 4 tabledDocument true none).run TreeBuilder.empty).1 =
      .ok () := by decide +kernel
  exact ⟨hr, by decide +kernel, renderUntil_tiles_grids builtIn_standard 4 tabledDocument true none hr⟩

end XamlDoc
