import XamlDoc.Document.Node

/-!
# Induction over nodes

A property that a node has if all its children have it holds of every node. What the recursions over
nodes come to is said in terms of the children as well.
-/

namespace XamlDoc

namespace Node

/-! ### Children -/

theorem mem_cellContents {rows : List (Row Node)} {row : Row Node} {cell : Cell Node}
    (hr : row ∈ rows) (hc : some cell ∈ row) : cell.content ∈ cellContents rows :=
  List.mem_flatMap.2 ⟨row, hr, List.mem_filterMap.2 ⟨some cell, hc, rfl⟩⟩

theorem mem_children_numberedList {items : List (NumberedItem Node)} {item : NumberedItem Node}
    (h : item ∈ items) : item.child ∈ (numberedList items).children :=
  List.mem_map.2 ⟨item, h, rfl⟩

theorem mem_children_taskList {items : List (TaskItem Node)} {item : TaskItem Node}
    (h : item ∈ items) : item.child ∈ (taskList items).children :=
  List.mem_map.2 ⟨item, h, rfl⟩

theorem mem_children_terms {groups : List (DefinitionGroup Node)} {g : DefinitionGroup Node}
    {n : Node} (hg : g ∈ groups) (h : n ∈ g.terms) : n ∈ (definitionList groups).children :=
  List.mem_flatMap.2 ⟨g, hg, List.mem_append_left _ h⟩

theorem mem_children_descriptions {groups : List (DefinitionGroup Node)} {g : DefinitionGroup Node}
    {n : Node} (hg : g ∈ groups) (h : n ∈ g.descriptions) : n ∈ (definitionList groups).children :=
  List.mem_flatMap.2 ⟨g, hg, List.mem_append_right _ h⟩

/-! ### Induction -/

section Induction

variable {Q : Node → Prop}

mutual

/-- A property that passes from the children to the node holds of every node. -/
theorem induction (step : ∀ n, (∀ m ∈ n.children, Q m) → Q n) (n : Node) : Q n := by
  refine step n ?_
  cases n with
  | strong c | emphasize c | delete c | insert c | underline c | superscript c | subscript c
  | link _ c | linkReference _ c | multimedia _ c _ | multimediaReference _ c _ | abbreviation _ c
  | paragraph c | header _ c | bulletList c | blockQuote c | insertBlocks c | deleteBlocks c
  | aligned _ c | nestedBlock c | htmlBlock c => exact inductionAll step c
  | singleChild c | standalone c =>
    intro m hm
    rw [List.mem_singleton.1 hm]
    exact induction step c
  | numberedList items =>
    intro m hm
    obtain ⟨item, hi, rfl⟩ := List.mem_map.1 hm
    exact inductionNumbered step items item hi
  | taskList items =>
    intro m hm
    obtain ⟨item, hi, rfl⟩ := List.mem_map.1 hm
    exact inductionTasks step items item hi
  | definitionList groups =>
    intro m hm
    obtain ⟨g, hg, hm⟩ := List.mem_flatMap.1 hm
    obtain ⟨ht, hd⟩ := inductionGroups step groups g hg
    exact (List.mem_append.1 hm).elim (ht m) (hd m)
  | table t =>
    obtain ⟨columns, alignments, headers, rows, caption, id⟩ := t
    intro m hm
    obtain ⟨row, hr, hm⟩ := List.mem_flatMap.1 hm
    obtain ⟨cell?, hc, hm⟩ := List.mem_filterMap.1 hm
    obtain ⟨cell, rfl, rfl⟩ := Option.map_eq_some_iff.1 hm
    rcases List.mem_append.1 hr with hr | hr
    · exact inductionRows step headers row hr cell hc
    · exact inductionRows step rows row hr cell hc
  | _ => exact fun m hm => (List.not_mem_nil hm).elim

theorem inductionAll (step : ∀ n, (∀ m ∈ n.children, Q m) → Q n) (c : List Node) :
    ∀ m ∈ c, Q m := by
  cases c with
  | nil => exact fun m hm => (List.not_mem_nil hm).elim
  | cons n r =>
    intro m hm
    rcases List.mem_cons.1 hm with h | hm
    · exact h ▸ induction step n
    · exact inductionAll step r m hm

theorem inductionNumbered (step : ∀ n, (∀ m ∈ n.children, Q m) → Q n)
    (items : List (NumberedItem Node)) : ∀ item ∈ items, Q item.child := by
  cases items with
  | nil => exact fun m hm => (List.not_mem_nil hm).elim
  | cons item r =>
    intro m hm
    rcases List.mem_cons.1 hm with h | hm
    · exact h ▸ induction step item.child
    · exact inductionNumbered step r m hm

theorem inductionTasks (step : ∀ n, (∀ m ∈ n.children, Q m) → Q n)
    (items : List (TaskItem Node)) : ∀ item ∈ items, Q item.child := by
  cases items with
  | nil => exact fun m hm => (List.not_mem_nil hm).elim
  | cons item r =>
    intro m hm
    rcases List.mem_cons.1 hm with h | hm
    · exact h ▸ induction step item.child
    · exact inductionTasks step r m hm

theorem inductionGroups (step : ∀ n, (∀ m ∈ n.children, Q m) → Q n)
    (groups : List (DefinitionGroup Node)) :
    ∀ g ∈ groups, (∀ m ∈ g.terms, Q m) ∧ ∀ m ∈ g.descriptions, Q m := by
  cases groups with
  | nil => exact fun m hm => (List.not_mem_nil hm).elim
  | cons g r =>
    intro m hm
    rcases List.mem_cons.1 hm with h | hm
    · exact h ▸ ⟨inductionAll step g.terms, inductionAll step g.descriptions⟩
    · exact inductionGroups step r m hm

theorem inductionRows (step : ∀ n, (∀ m ∈ n.children, Q m) → Q n) (rows : List (Row Node)) :
    ∀ row ∈ rows, ∀ cell, some cell ∈ row → Q cell.content := by
  cases rows with
  | nil => exact fun m hm => (List.not_mem_nil hm).elim
  | cons cells r =>
    intro row hr
    rcases List.mem_cons.1 hr with h | hr
    · exact h ▸ inductionRow step cells
    · exact inductionRows step r row hr

theorem inductionRow (step : ∀ n, (∀ m ∈ n.children, Q m) → Q n) (row : Row Node) :
    ∀ cell, some cell ∈ row → Q cell.content := by
  cases row with
  | nil => exact fun m hm => (List.not_mem_nil hm).elim
  | cons cell? r =>
    intro cell hc
    cases cell? with
    | none =>
      rcases List.mem_cons.1 hc with hc | hc
      · cases hc
      · exact inductionRow step r cell hc
    | some first =>
      rcases List.mem_cons.1 hc with hc | hc
      · exact Option.some.inj hc ▸ induction step first.content
      · exact inductionRow step r cell hc

end

end Induction

/-! ### Walks -/

theorem walkAll_eq (c : List Node) : walkAll c = c.flatMap walk := by
  induction c with
  | nil => rfl
  | cons n r ih => rw [walkAll, ih, List.flatMap_cons]

theorem walkNumbered_eq (items : List (NumberedItem Node)) :
    walkNumbered items = (items.map NumberedItem.child).flatMap walk := by
  induction items with
  | nil => rfl
  | cons item r ih => rw [walkNumbered, ih, List.map_cons, List.flatMap_cons]

theorem walkTasks_eq (items : List (TaskItem Node)) :
    walkTasks items = (items.map TaskItem.child).flatMap walk := by
  induction items with
  | nil => rfl
  | cons item r ih => rw [walkTasks, ih, List.map_cons, List.flatMap_cons]

theorem walkGroups_eq (groups : List (DefinitionGroup Node)) :
    walkGroups groups = (groups.flatMap fun g => g.terms ++ g.descriptions).flatMap walk := by
  induction groups with
  | nil => rfl
  | cons g r ih => simp only [walkGroups, ih, walkAll_eq, List.flatMap_cons, List.flatMap_append]

theorem walkRow_eq (row : Row Node) :
    walkRow row = (row.filterMap fun cell? => cell?.map Cell.content).flatMap walk := by
  induction row with
  | nil => rfl
  | cons cell? r ih => cases cell? <;> simp [walkRow, ih]

theorem walkRows_eq (rows : List (Row Node)) : walkRows rows = (cellContents rows).flatMap walk := by
  induction rows with
  | nil => rfl
  | cons row r ih =>
    simp only [walkRows, ih, walkRow_eq, cellContents, List.flatMap_cons, List.flatMap_append]

theorem walk_eq (n : Node) : n.walk = n :: n.children.flatMap walk := by
  cases n with
  | numberedList items => rw [walk, walkNumbered_eq]; rfl
  | taskList items => rw [walk, walkTasks_eq]; rfl
  | definitionList groups => rw [walk, walkGroups_eq]; rfl
  | table t =>
    obtain ⟨columns, alignments, headers, rows, caption, id⟩ := t
    simp only [walk, walkRows_eq, children, Table.allRows, cellContents, List.flatMap_append]
  | singleChild c | standalone c => simp [walk, children]
  | strong c | emphasize c | delete c | insert c | underline c | superscript c | subscript c
  | link _ c | linkReference _ c | multimedia _ c _ | multimediaReference _ c _ | abbreviation _ c
  | paragraph c | header _ c | bulletList c | blockQuote c | insertBlocks c | deleteBlocks c
  | aligned _ c | nestedBlock c | htmlBlock c => rw [walk, walkAll_eq]; rfl
  | _ => rfl

/-- A node at any depth of some nodes. -/
inductive Within (c : List Node) : Node → Prop where
  | top {n : Node} : n ∈ c → Within c n
  | child {n m : Node} : Within c n → m ∈ n.children → Within c m

theorem self_mem_walk (n : Node) : n ∈ n.walk := by
  rw [walk_eq]
  exact List.mem_cons_self ..

theorem mem_walk_of_child {n m q : Node} (hm : m ∈ n.children) (hq : q ∈ m.walk) : q ∈ n.walk := by
  rw [walk_eq]
  exact List.mem_cons_of_mem n (List.mem_flatMap.2 ⟨m, hm, hq⟩)

theorem mem_walkAll_of_mem {c : List Node} {n q : Node} (hn : n ∈ c) (hq : q ∈ n.walk) : q ∈ walkAll c := by
  rw [walkAll_eq]
  exact List.mem_flatMap.2 ⟨n, hn, hq⟩

theorem mem_walk_of_mem_children {root n m : Node} (hn : n ∈ root.walk) (hm : m ∈ n.children) : m ∈ root.walk := by
  induction root using Node.induction with
  | step root ih =>
    rw [walk_eq] at hn
    rcases List.mem_cons.1 hn with rfl | hn
    · exact mem_walk_of_child hm m.self_mem_walk
    · obtain ⟨q, hq, hn⟩ := List.mem_flatMap.1 hn
      exact mem_walk_of_child hq (ih q hq hn)

theorem Within.of_mem_walk {c : List Node} {n m : Node} (hn : Within c n) (hm : m ∈ n.walk) : Within c m := by
  induction n using Node.induction with
  | step n ih =>
    rw [walk_eq] at hm
    rcases List.mem_cons.1 hm with rfl | hm
    · exact hn
    · obtain ⟨q, hq, hm⟩ := List.mem_flatMap.1 hm
      exact ih q hq (hn.child hq) hm

/-- A walk comes to every node at any depth, and to no other. -/
theorem mem_walkAll {c : List Node} {n : Node} : n ∈ walkAll c ↔ Within c n := by
  rw [walkAll_eq, List.mem_flatMap]
  constructor
  · rintro ⟨root, hr, hn⟩
    exact (Within.top hr).of_mem_walk hn
  · intro h
    induction h with
    | @top n hn => exact ⟨n, hn, n.self_mem_walk⟩
    | child _ hm ih =>
      obtain ⟨root, hr, hn⟩ := ih
      exact ⟨root, hr, mem_walk_of_mem_children hn hm⟩

end Node

end XamlDoc
