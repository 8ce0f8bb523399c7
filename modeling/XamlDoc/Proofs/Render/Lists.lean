import XamlDoc.Proofs.Html.Columns
import XamlDoc.Proofs.Render.Grids
import XamlDoc.Proofs.Render.Neighbours

/-!
# Rows and numbers of lists

A list is a grid with one row for each item: a marker in the first column and the content of the item in the second.
The items of a numbered list are counted from the nearest number that is given, and HTML counts them alike, but the
grid stops at the greatest number there is.
-/

namespace XamlDoc

open Markup Gauged
open Markup.Content (allCalls allCalls_append)
open Rendering Layout

/-! ### Counting -/

/-- What the item at a place is counted as: from the last number that is given up to there, or from the first one. -/
inductive Counts (first : Nat) (given : List (Option Nat)) (i : Nat) : Nat → Prop
  | fromGiven {j m : Nat} : j ≤ i → given[j]? = some (some m) → (∀ k, j < k → k ≤ i → given[k]? = some none) →
    Counts first given i (m + (i - j))
  | fromFirst : (∀ k ≤ i, given[k]? = some none) → Counts first given i (first + i)

/-- The numbers of items, of which some are given, when the next one is due. -/
def countFrom : Nat → List (Option Nat) → List Nat
  | _, [] => []
  | next, number? :: r => number?.getD next :: countFrom (number?.getD next + 1) r

theorem Counts.cons {next i n : Nat} {number? : Option Nat} {given : List (Option Nat)}
    (h : Counts (number?.getD next + 1) given i n) : Counts next (number? :: given) (i + 1) n := by
  cases h with
  | @fromGiven j m hj hm hr =>
    have hc : Counts next (number? :: given) (i + 1) (m + (i + 1 - (j + 1))) := by
      refine .fromGiven (Nat.succ_le_succ hj) hm fun k hk hk' => ?_
      cases k with
      | zero => cases hk
      | succ k => exact hr k (Nat.lt_of_succ_lt_succ hk) (Nat.le_of_succ_le_succ hk')
    rwa [Nat.add_sub_add_right] at hc
  | fromFirst hr =>
    -- the number of the first item counts if it is given
    cases number? with
    | some m =>
      have hc : Counts next (some m :: given) (i + 1) (m + (i + 1 - 0)) := by
        refine .fromGiven (Nat.zero_le _) rfl fun k hk hk' => ?_
        cases k with
        | zero => cases hk
        | succ k => exact hr k (Nat.le_of_succ_le_succ hk')
      rwa [show m + (i + 1 - 0) = m + 1 + i by omega] at hc
    | none =>
      have hc : Counts next (none :: given) (i + 1) (next + (i + 1)) := by
        refine .fromFirst fun k hk => ?_
        cases k with
        | zero => rfl
        | succ k => exact hr k (Nat.le_of_succ_le_succ hk)
      rwa [show next + (i + 1) = next + 1 + i by omega] at hc

theorem counts_countFrom {next : Nat} {given : List (Option Nat)} {i n : Nat}
    (h : (countFrom next given)[i]? = some n) : Counts next given i n := by
  induction given generalizing next i with
  | nil => cases h
  | cons number? r ih =>
    cases i with
    | succ i => exact .cons (ih h)
    | zero =>
      obtain rfl : number?.getD next = n := Option.some.inj h
      cases number? with
      | some m => exact .fromGiven (j := 0) (Nat.le_refl 0) rfl fun k hk hk' => absurd hk (Nat.not_lt.2 hk')
      | none =>
        refine .fromFirst fun k hk => ?_
        rw [Nat.le_zero.1 hk]
        rfl

theorem length_countFrom (next : Nat) (given : List (Option Nat)) : (countFrom next given).length = given.length := by
  induction given generalizing next with
  | nil => rfl
  | cons number? r ih => exact congrArg (· + 1) (ih _)

namespace Counts

variable {first i n n' : Nat} {given : List (Option Nat)}

theorem unique (h : Counts first given i n) (h' : Counts first given i n') : n = n' := by
  cases h with
  | @fromGiven j m hj hm hr =>
    cases h' with
    | @fromGiven j' m' hj' hm' hr' =>
      rcases Nat.lt_trichotomy j j' with hlt | rfl | hgt
      · cases hm'.symm.trans (hr j' hlt hj')
      · cases hm.symm.trans hm'
        rfl
      · cases hm.symm.trans (hr' j hgt hj)
    | fromFirst hr' => cases hm.symm.trans (hr' j hj)
  | fromFirst hr =>
    cases h' with
    | @fromGiven j' m' hj' hm' hr' => cases hm'.symm.trans (hr j' hj')
    | fromFirst _ => rfl

theorem isSome (h : Counts first given i n) : ∃ number?, given[i]? = some number? := by
  cases h with
  | @fromGiven j m hj hm hr =>
    rcases Nat.eq_or_lt_of_le hj with rfl | hlt
    · exact ⟨_, hm⟩
    · exact ⟨_, hr i hlt (Nat.le_refl i)⟩
  | fromFirst hr => exact ⟨_, hr i (Nat.le_refl i)⟩

end Counts

/-- A running counter that is set again by the numbers that are given counts from the nearest of these. -/
theorem counts_iff {next : Nat} {given : List (Option Nat)} {i n : Nat} :
    Counts next given i n ↔ (countFrom next given)[i]? = some n := by
  refine ⟨fun h => ?_, counts_countFrom⟩
  obtain ⟨number?, hi⟩ := h.isSome
  have hlt : i < (countFrom next given).length := by
    rw [length_countFrom]
    exact (List.getElem?_eq_some_iff.1 hi).1
  have hn := List.getElem?_eq_getElem hlt
  rw [h.unique (counts_countFrom hn), hn]

theorem ordinals_cons (last : Nat) (number? : Option UInt32) (r : List (Option UInt32)) :
    ordinals last (number? :: r) =
      (number?.map UInt32.toNat).getD (min (last + 1) (2 ^ 32 - 1)) ::
        ordinals ((number?.map UInt32.toNat).getD (min (last + 1) (2 ^ 32 - 1))) r :=
  rfl

/-- The ordinals are what a counter without a bound comes to, as far as there are such numbers. -/
theorem ordinals_eq (c : Nat) (numbers : List (Option UInt32)) :
    ordinals (min c (2 ^ 32 - 1)) numbers =
      (countFrom (c + 1) (numbers.map (Option.map UInt32.toNat))).map fun n => min n (2 ^ 32 - 1) := by
  induction numbers generalizing c with
  | nil => rfl
  | cons number? r ih =>
    have hn : (number?.map UInt32.toNat).getD (min (min c (2 ^ 32 - 1) + 1) (2 ^ 32 - 1)) =
        min ((number?.map UInt32.toNat).getD (c + 1)) (2 ^ 32 - 1) := by
      cases number? with
      | some m =>
        have hm := m.toNat_lt
        rw [Option.map_some, Option.getD_some, Option.getD_some]
        omega
      | none =>
        rw [Option.map_none, Option.getD_none, Option.getD_none]
        omega
    rw [ordinals_cons, hn, ih]
    rfl

/-! ### Numbers of HTML items -/

namespace Html

/-- The number that a list item gives, if it gives one. -/
def Fragment.itemValue? : Fragment → Option (Option Nat)
  | .element .li attributes _ => some ((attributes.lookup .value).bind String.toNat?)
  | _ => none

/-- The numbers of the items of an ordered list. -/
def Fragment.itemNumbers : Fragment → List Nat
  | .element .ol _ items => countFrom 1 (items.filterMap Fragment.itemValue?)
  | _ => []

theorem yields_numberedItem (item : NumberedItem Part) :
    Yields (List.filterMap Fragment.itemValue? · = [item.number.map UInt32.toNat]) (numberedItem item) := by
  refine (Yields.any _).andThen fun content _ => .done ?_
  have hv : (Fragment.element .li ((item.number.map fun k => (AttributeName.value, toString k.toNat)).toList)
      content).itemValue? = some (item.number.map UInt32.toNat) := by
    cases item.number with
    | none => rfl
    | some m => exact congrArg some (Nat.toNat?_repr m.toNat)
  rw [List.filterMap_cons_some hv]
  rfl

/-- The numbers of a list are counted from one, or from the last number that is given. -/
theorem itemNumbers_of_node {s : Scope} {items : List (NumberedItem Node)} {l : List Fragment} {t t' : Traversal}
    (h : node s (.numberedList items) t = .ok (l, t')) : ∃ f, l = [f] ∧
      f.itemNumbers = countFrom 1 (items.map fun item => item.number.map UInt32.toNat) := by
  have hitems : Yields (List.filterMap Fragment.itemValue? · = items.map fun item => item.number.map UInt32.toNat)
      (inOrder ((numbered s items).map numberedItem)) := by
    rw [numbered_eq, List.map_map]
    exact yields_inOrder rfl (fun _ _ => List.filterMap_append) fun item _ => yields_numberedItem _
  have hlist : Yields (fun l => ∃ f, l = [f] ∧
      f.itemNumbers = countFrom 1 (items.map fun item => item.number.map UInt32.toNat))
      (wrapped .ol [] (inOrder ((numbered s items).map numberedItem))) :=
    hitems.andThen fun l hl => .done ⟨_, rfl, congrArg (countFrom 1) hl⟩
  exact hlist.visit t l t' h

end Html

/-! ### Lists -/

/-- A list of any kind. -/
inductive ItemList where
  | bullets (items : List Node)
  | numbers (items : List (NumberedItem Node))
  | tasks (items : List (TaskItem Node))

namespace ItemList

def node : ItemList → Node
  | .bullets items => .bulletList items
  | .numbers items => .numberedList items
  | .tasks items => .taskList items

def items : ItemList → List Node
  | .bullets items => items
  | .numbers items => items.map NumberedItem.child
  | .tasks items => items.map TaskItem.child

def marked (s : Scope) : ItemList → List Marked
  | .bullets items => Layout.bullets (Render.parts s items)
  | .numbers items => Layout.numbers (Render.numberedParts s items)
  | .tasks items => Layout.checks (Render.taskParts s items)

/-- The marker of the item at a place. A number is the one that is counted and that HTML counts, but it is not above the
greatest there is. -/
def Marks (i : Nat) (marker : String) : ItemList → Prop
  | .bullets _ => marker = "•"
  | .numbers items => ∃ n, Counts 1 (items.map fun item => item.number.map UInt32.toNat) i n ∧
      marker = toString (min n (2 ^ 32 - 1)) ++ "." ∧
      ∀ (s : Html.Scope) (t : Traversal) (l : List Html.Fragment) (t' : Traversal),
        Html.node s (.numberedList items) t = .ok (l, t') → ∃ f, l = [f] ∧ f.itemNumbers[i]? = some n
  | .tasks items => ∃ item, items[i]? = some item ∧ marker = if item.checked then "✓" else ""

theorem node_eq_block (l : ItemList) (s : Scope) (st : Style) :
    Render.node s l.node st = Render.block s (Layout.list s.dialect st (l.marked s)) := by
  cases l <;> rfl

theorem part_marked (l : ItemList) (s : Scope) : (l.marked s).map Marked.part = l.items.map s.part := by
  cases l with
  | bullets items =>
    rw [marked, Render.parts_eq, Layout.bullets, List.map_map, ItemList.items]
    exact List.map_id _
  | numbers items =>
    rw [marked, Render.numberedParts_eq, numbers_map, List.map_map, ItemList.items, List.map_map]
    have hs := map_snd_numbered (NumberedItem.map s.part) items
    calc _ = ((numbered (NumberedItem.map s.part) items).map Prod.snd).map fun item => s.part item.child :=
          (List.map_map ..).symm
      _ = _ := by rw [hs]; rfl
  | tasks items =>
    rw [marked, Render.taskParts_eq, Layout.checks, List.map_map, List.map_map, ItemList.items, List.map_map]
    rfl

theorem marks_marked {l : ItemList} {s : Scope} {i : Nat} {m : Marked} (h : (l.marked s)[i]? = some m) :
    l.Marks i m.marker := by
  cases l with
  | bullets items =>
    rw [marked, Layout.bullets, List.getElem?_map] at h
    obtain ⟨part, -, rfl⟩ := Option.map_eq_some_iff.1 h
    rfl
  | numbers items =>
    let given := items.map fun item => item.number.map UInt32.toNat
    have hordinals : ordinals 0 ((items.map (NumberedItem.map s.part)).map NumberedItem.number) =
        (countFrom 1 given).map fun n => min n (2 ^ 32 - 1) := by
      have ho := ordinals_eq 0 (items.map NumberedItem.number)
      rw [List.map_map] at ho ⊢
      exact ho
    rw [marked, Render.numberedParts_eq, numbers_map, numbered, hordinals, List.getElem?_map] at h
    obtain ⟨⟨ordinal, item⟩, hz, rfl⟩ := Option.map_eq_some_iff.1 h
    have ho := (List.getElem?_zip_eq_some.1 hz).1
    rw [List.getElem?_map] at ho
    obtain ⟨n, hn, rfl⟩ := Option.map_eq_some_iff.1 ho
    refine ⟨n, counts_countFrom hn, rfl, fun s t l t' hl => ?_⟩
    obtain ⟨f, rfl, hf⟩ := Html.itemNumbers_of_node hl
    exact ⟨f, rfl, hf ▸ hn⟩
  | tasks items =>
    rw [marked, Render.taskParts_eq, Layout.checks, List.map_map, List.getElem?_map] at h
    obtain ⟨item, hi, rfl⟩ := Option.map_eq_some_iff.1 h
    exact ⟨item, hi, rfl⟩

end ItemList

/-! ### Rows -/

/-- A row of a list, with what its item wrote. -/
structure ListRow where
  marker : String
  margins : Margins
  content : List Content

section

variable (d : Dialect)

def markerCell (row : Nat) (r : ListRow) : Content :=
  .element "ContentView" (("Padding", d.spacing (.listMarker r.margins.top r.margins.bottom)) :: cellPlace 0 row)
    [.element "Label" (if r.marker = "" then [] else [("Text", r.marker)]) []]

def contentCell (row : Nat) (r : ListRow) : Content :=
  .element d.stack.name (d.stack.attributes ++ cellPlace 1 row) r.content

/-- The cells of the rows, of which the first has a number. -/
def listCells : Nat → List ListRow → List Content
  | _, [] => []
  | row, r :: rest => markerCell d row r :: contentCell d row r :: listCells (row + 1) rest

def listView (a : Alignment) (rows : List ListRow) : Content :=
  .element "ContentView" (("Padding", d.spacing .block) :: alignmentOptions a)
    [.element "Grid" (gridTag "0").attributes
      ((columnDefinitions ["Auto", "*"]).toContent :: (rowDefinitions rows.length).toContent :: listCells d 0 rows)]

theorem length_listCells (row : Nat) (rows : List ListRow) : (listCells d row rows).length = 2 * rows.length := by
  induction rows generalizing row with
  | nil => rfl
  | cons r rest ih => rw [listCells, List.length_cons, List.length_cons, ih, List.length_cons, Nat.mul_succ]

theorem getElem?_listCells (row : Nat) {rows : List ListRow} {i : Nat} {r : ListRow} (h : rows[i]? = some r) :
    (listCells d row rows)[2 * i]? = some (markerCell d (row + i) r) ∧
      (listCells d row rows)[2 * i + 1]? = some (contentCell d (row + i) r) := by
  induction rows generalizing row i with
  | nil => cases h
  | cons first rest ih =>
    cases i with
    | zero =>
      obtain rfl : first = r := Option.some.inj h
      exact ⟨rfl, rfl⟩
    | succ i =>
      have hr := ih (row + 1) h
      rwa [Nat.add_right_comm] at hr

end

/-- The renderings, one after the other and each with no runs before it, write the contents. -/
inductive InTurn : List (Rendering Unit) → Traversal → List (List Content) → Traversal → Prop
  | nil {t : Traversal} : InTurn [] t [] t
  | cons {m : Rendering Unit} {r : List (Rendering Unit)} {t u v : Traversal} {k : List Content}
    {ks : List (List Content)} : Comes (m ⟨t, ∅⟩) (.ok ((), ⟨u, ∅⟩)) (allCalls k) → InTurn r u ks v →
      InTurn (m :: r) t (k :: ks) v

namespace Yields

variable {d : Dialect}

/-- A rendering that is flushed comes to some end, and leaves no runs. -/
theorem flushed {m : Rendering Unit} (h : Placeless d.profile Unit m) (t : Traversal) :
    ∃ u x, Yields (Layout.flushed d m ⟨t, ∅⟩) ((), ⟨u, ∅⟩) x := by
  obtain ⟨r, cs, hp⟩ := h ⟨t, ∅⟩
  obtain ⟨q, hq⟩ : ∃ q : Progress, ∀ b, r = .ok b → b = ((), q) := by
    cases r with
    | error e => exact ⟨⟨t, ∅⟩, fun _ hr => by cases hr⟩
    | ok b => exact ⟨b.2, fun c hc => (Except.ok.inj hc).symm⟩
  obtain ⟨x, hm⟩ := Yields.of_placed hp hq
  exact ⟨q.traversal, _, hm.bind (Yields.flush d.profile q)⟩

theorem listRow (d : Dialect) (st : Style) (row : Nat) (item : Marked) {t u : Traversal}
    {y : Except RenderError (List Content)}
    (h : Yields (Layout.flushed d (item.part.render st) ⟨t, ∅⟩) ((), ⟨u, ∅⟩) y) :
    Yields (Layout.listRow d st row item ⟨t, ∅⟩) ((), ⟨u, ∅⟩) (y.map fun k =>
      let r : ListRow := ⟨item.marker, item.part.margins, k⟩
      [markerCell d row r, contentCell d row r]) := by
  let marker : Rendering Unit := emit (allCalls [markerCell d row ⟨item.marker, item.part.margins, []⟩])
  let content : Rendering Unit := Rendering.element ⟨d.stack.name, d.stack.attributes ++ cellPlace 1 row⟩
    (Layout.flushed d (item.part.render st))
  have hl : Layout.listRow d st row item = marker >>= fun _ => content := by
    rw [Layout.listRow, leaf_eq_emit, element_emit]
    rfl
  have hm : Yields (marker ⟨t, ∅⟩) ((), ⟨t, ∅⟩) (.ok [markerCell d row ⟨item.marker, item.part.margins, []⟩]) :=
    .ok (Comes.emit _ _)
  have hrow := hm.bind (f := fun _ => content) (h.element (stackCell_distinct d 1 row))
  rw [hl]
  cases y <;> exact hrow

/-- The items are written in turn, each into its row. -/
theorem inRows {st : Style} {items : List Marked} (h : ∀ i ∈ items, Placeless d.profile Unit (i.part.render st))
    (row : Nat) (t : Traversal) : ∃ (u : Traversal) (x : Except RenderError (List ListRow)),
    Yields (Layout.inRows (fun i => Layout.listRow d st (row + i)) items ⟨t, ∅⟩) ((), ⟨u, ∅⟩)
        (x.map (listCells d row)) ∧
      ∀ rows, x = .ok rows → rows.map ListRow.marker = items.map Marked.marker ∧
        rows.map ListRow.margins = items.map (fun i => i.part.margins) ∧
        InTurn (items.map fun i => Layout.flushed d (i.part.render st)) t (rows.map ListRow.content) u := by
  induction items generalizing row t with
  | nil => exact ⟨t, .ok [], .ok (Comes.done _), by rintro rows ⟨⟩; exact ⟨rfl, rfl, .nil⟩⟩
  | cons item r ih =>
    obtain ⟨u, y, hy⟩ := Yields.flushed (h item (List.mem_cons_self ..)) t
    obtain ⟨v, x, hx, hrows⟩ := ih (fun i hi => h i (List.mem_cons_of_mem item hi)) (row + 1) u
    let rest : Rendering Unit := Layout.inRows (fun i => Layout.listRow d st (row + 1 + i)) r
    have hstep : Layout.inRows (fun i => Layout.listRow d st (row + i)) (item :: r) =
        Layout.listRow d st row item >>= fun _ => rest := by
      have hf : (fun i => Layout.listRow d st (row + (i + 1))) = fun i => Layout.listRow d st (row + 1 + i) := by
        funext i
        rw [Nat.add_right_comm, Nat.add_assoc]
      rw [Layout.inRows, List.mapIdx_cons]
      show (Layout.listRow d st row item >>= fun _ =>
        Layout.inRows (fun i => Layout.listRow d st (row + (i + 1))) r) = _
      rw [hf]
    have hrow := (Yields.listRow d st row item hy).bind (f := fun _ => rest) hx
    rw [← hstep] at hrow
    cases hy with
    | error _ => exact ⟨v, .error _, hrow, fun _ hr => by cases hr⟩
    | @ok k hk =>
      cases x with
      | error e => exact ⟨v, .error e, hrow, fun _ hr => by cases hr⟩
      | ok rows =>
        obtain ⟨hmarkers, hmargins, hturn⟩ := hrows rows rfl
        refine ⟨v, .ok (⟨item.marker, item.part.margins, k⟩ :: rows), hrow, ?_⟩
        rintro _ ⟨⟩
        exact ⟨congrArg (item.marker :: ·) hmarkers, congrArg (item.part.margins :: ·) hmargins, .cons hk hturn⟩

/-- A list with items in any place is written as its rows, or ends with an error. -/
theorem list {st : Style} {items : List Marked} (h : ∀ i ∈ items, Placeless d.profile Unit (i.part.render st))
    (t : Traversal) : ∃ (u : Traversal) (x : Except RenderError (List ListRow)),
    Yields (Layout.list d st items ⟨t, ∅⟩) ((), ⟨u, ∅⟩) (x.map fun rows => [listView d st.alignment rows]) ∧
      ∀ rows, x = .ok rows → rows.map ListRow.marker = items.map Marked.marker ∧
        rows.map ListRow.margins = items.map (fun i => i.part.margins) ∧
        InTurn (items.map fun i => Layout.flushed d (i.part.render st)) t (rows.map ListRow.content) u := by
  obtain ⟨u, x, hx, hrows⟩ := Yields.inRows h 0 t
  have hf : (fun i => Layout.listRow d st (0 + i)) = Layout.listRow d st := by
    funext i
    rw [Nat.zero_add]
  rw [hf] at hx
  let defined : List Content := [(columnDefinitions ["Auto", "*"]).toContent, (rowDefinitions items.length).toContent]
  have hd : Yields (emit (gridDefinitions ["Auto", "*"] items.length) ⟨t, ∅⟩) ((), ⟨t, ∅⟩) (.ok defined) := by
    rw [gridDefinitions_eq]
    exact .ok (Comes.emit defined _)
  have hgrid := (hd.bind (f := fun _ => Layout.inRows (Layout.listRow d st) items) hx).element (gridTag_distinct "0")
  have hlist := hgrid.element (t := ⟨"ContentView", ("Padding", d.spacing .block) :: alignmentOptions st.alignment⟩)
    (padded_distinct (d.spacing .block) st.alignment)
  rw [← grid_eq_element] at hlist
  refine ⟨u, x, ?_, hrows⟩
  cases x with
  | error e => exact hlist
  | ok rows =>
    have hlen : rows.length = items.length := by
      have hm := congrArg List.length (hrows rows rfl).1
      rwa [List.length_map, List.length_map] at hm
    show Yields _ _ (.ok [listView d st.alignment rows])
    rw [listView, hlen]
    exact hlist

end Yields

namespace Render

variable {setting : Setting} {limit : Nat} {D : Document} {levels : Nat} {expanding : List String}

theorem placeless_node (hx : setting.extensions.BuiltIn) (n : Node) (st : Style) :
    let s := scopeWithin setting limit D levels expanding
    Placeless s.profile Unit (node s n st) := by
  intro s
  have h := (Placeless.closed hx).nodesWithin limit D levels expanding [n] st
  rw [show nodes s [n] st = node s n st from bind_pure_unit] at h
  rwa [Scope.profile, scopeWithin_setting]

variable (limit D levels expanding) in
theorem yields_items (hx : setting.extensions.BuiltIn) (l : ItemList) (st : Style) (p : Progress) :
    let s := scopeWithin setting limit D levels expanding
    ∃ (u : Traversal) (x : Except RenderError (List ListRow)),
      Yields (node s l.node st p) ((), ⟨u, ∅⟩)
          (x.map fun rows => p.runs.contents s.profile ++ [listView s.dialect st.alignment rows]) ∧
        ∀ rows, x = .ok rows → rows.map ListRow.marker = (l.marked s).map Marked.marker ∧
          rows.map ListRow.margins = l.items.map Node.margins ∧
          InTurn (l.items.map fun n => flushed s.dialect (node s n st)) p.traversal.tick
            (rows.map ListRow.content) u := by
  intro s
  have hparts := l.part_marked s
  have hitems (i : Marked) (hi : i ∈ l.marked s) : Placeless s.dialect.profile Unit (i.part.render st) := by
    obtain ⟨n, -, hn⟩ := List.mem_map.1 (hparts ▸ List.mem_map_of_mem hi)
    rw [← hn]
    exact placeless_node hx n st
  have hmargins : ((l.marked s).map fun i => i.part.margins) = l.items.map Node.margins :=
    calc _ = ((l.marked s).map Marked.part).map Part.margins := (List.map_map ..).symm
      _ = _ := by rw [hparts, List.map_map]; rfl
  have hturns : ((l.marked s).map fun i => flushed s.dialect (i.part.render st)) =
      l.items.map fun n => flushed s.dialect (node s n st) :=
    calc _ = ((l.marked s).map Marked.part).map fun part => flushed s.dialect (part.render st) :=
          (List.map_map ..).symm
      _ = _ := by rw [hparts, List.map_map]; rfl
  rw [l.node_eq_block, block, visit_apply]
  split
  · exact ⟨p.traversal, .error .cancelled, .error fun _ _ => rfl, fun _ hr => by cases hr⟩
  · obtain ⟨u, x, hlist, hrows⟩ := Yields.list hitems p.traversal.tick
    rw [hmargins, hturns] at hrows
    have hblock := Yields.bind (f := fun _ => Layout.list s.dialect st (l.marked s))
      (Yields.flush s.profile ⟨p.traversal.tick, p.runs⟩) hlist
    refine ⟨u, x, ?_, hrows⟩
    cases x <;> exact hblock

/-- A list that is rendered well is written as a grid, behind all that waited. The grid has a row for each item, in
which are its marker and, beside that, all that the item writes when its turn comes. There are no other cells. -/
theorem list_rows (hx : setting.extensions.BuiltIn) (l : ItemList) (st : Style) (p q : Progress) (b : TreeBuilder) :
    let s := scopeWithin setting limit D levels expanding
    let r := Writing.run (node s l.node st p) b
    r.1 = .ok ((), q) → ∃ rows : List ListRow,
      r.2 = (p.runs.contents s.profile ++ [listView s.dialect st.alignment rows]).foldl TreeBuilder.push b ∧
        q.runs = ∅ ∧ rows.length = l.items.length ∧
        (rowDefinitions rows.length).count "RowDefinition" = l.items.length ∧
        (listCells s.dialect 0 rows).length = 2 * l.items.length ∧
        rows.map ListRow.margins = l.items.map Node.margins ∧
        InTurn (l.items.map fun n => flushed s.dialect (node s n st)) p.traversal.tick (rows.map ListRow.content)
          q.traversal ∧
        ∀ i row, rows[i]? = some row →
          (listCells s.dialect 0 rows)[2 * i]? = some (markerCell s.dialect i row) ∧
            (listCells s.dialect 0 rows)[2 * i + 1]? = some (contentCell s.dialect i row) ∧ l.Marks i row.marker := by
  intro s r hr
  obtain ⟨u, x, h, hrows⟩ := yields_items limit D levels expanding hx l st p
  cases x with
  | error e =>
    cases h with
    | error h => cases (h b trivial).symm.trans hr
  | ok rows =>
    cases h with
    | ok h =>
      obtain ⟨hvalue, hmade⟩ := h.run (w := b) trivial
      obtain ⟨hmarkers, hmargins, hturn⟩ := hrows rows rfl
      cases hvalue.symm.trans hr
      have hlen : rows.length = l.items.length := by
        have hlen := congrArg List.length hmargins
        rwa [List.length_map, List.length_map] at hlen
      refine ⟨rows, ?_, rfl, hlen, by rw [count_rowDefinitions, hlen], by rw [length_listCells, hlen], hmargins, hturn,
        fun i row hi => ?_⟩
      · rw [Writing.run_eq_after, hmade, TreeBuilder.after_allCalls]
      · obtain ⟨hmarker, hcontent⟩ := getElem?_listCells s.dialect 0 hi
        rw [Nat.zero_add] at hmarker hcontent
        have hm : ((l.marked s).map Marked.marker)[i]? = some row.marker := by
          rw [← hmarkers, List.getElem?_map, hi]
          rfl
        rw [List.getElem?_map] at hm
        obtain ⟨m, hm, he⟩ := Option.map_eq_some_iff.1 hm
        exact ⟨hmarker, hcontent, he ▸ ItemList.marks_marked hm⟩

/-- Items that are counted up to the greatest number, with other lists in them. -/
def countedItems : List (NumberedItem Node) :=
  [⟨none, .paragraph [.text "a"]⟩, ⟨some 4294967294, .bulletList [.text "b", .numberedList [⟨none, .text "c"⟩]]⟩,
    ⟨none, .strong [.text "d"]⟩, ⟨none, .nestedBlock []⟩]

theorem list_rows_counted :
    let s := scopeWithin ⟨.ofKind .maui, .standard⟩ 1 (.ofNodes [.numberedList countedItems]) 0 []
    ∃ rows : List ListRow, (Writing.run (node s (.numberedList countedItems) .plain ⟨.start none, ∅⟩)
        TreeBuilder.empty).2 = TreeBuilder.empty.push (listView s.dialect .left rows) ∧
      rows.map ListRow.marker = ["1.", "4294967294.", "4294967295.", "4294967295."] ∧
      (listCells s.dialect 0 rows).length = 8 := by
  intro s
  obtain ⟨q, w, hr⟩ := exists_run (r := Writing.run (node s (.numberedList countedItems) .plain ⟨.start none, ∅⟩)
    TreeBuilder.empty) (by decide +kernel)
  obtain ⟨rows, hview, -, hlen, -, hcells, -, -, hmarks⟩ := @list_rows ⟨.ofKind .maui, .standard⟩ 1
    (.ofNodes [.numberedList countedItems]) 0 [] builtIn_standard (.numbers countedItems) .plain ⟨.start none, ∅⟩ q
    TreeBuilder.empty (congrArg Prod.fst hr)
  refine ⟨rows, hview, ?_, hcells⟩
  have hmarker (i : Nat) (row : ListRow) (hi : rows[i]? = some row) {n : Nat}
      (hn : (countFrom 1 [none, some 4294967294, none, none])[i]? = some n) :
      row.marker = toString (min n (2 ^ 32 - 1)) ++ "." := by
    obtain ⟨m, hm, he, -⟩ := (hmarks i row hi).2.2
    rw [he, hm.unique (counts_iff.2 hn)]
  match rows, hlen, hmarker with
  | [a, b, c, d], _, hmarker =>
    simp only [List.map_cons, List.map_nil]
    rw [hmarker 0 a rfl rfl, hmarker 1 b rfl rfl, hmarker 2 c rfl rfl, hmarker 3 d rfl rfl]
    decide +kernel

end Render

end XamlDoc
