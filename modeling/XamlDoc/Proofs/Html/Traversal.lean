import XamlDoc.Html.Traversal
import XamlDoc.Proofs.Document.Scripts
import XamlDoc.Proofs.Footnote.Shown

/-!
# Compositional properties of passes

The traversal that makes HTML, gone through once for all properties of passes that a pass without effect
has and that visits and sequences keep. As for renderings, a property may speak of a list of keys; those
of a node are the keys of the references shown with it. A property may also speak of several passes abreast, which
go through the same nodes in scopes of one document.
-/

namespace XamlDoc

namespace Html

variable {α β : Type}

theorem bind_apply (m : Pass α) (f : α → Pass β) (t : Traversal) :
    (m >>= f) t = match m t with
      | .ok (a, t) => f a t
      | .error e => .error e := by
  show Except.bind (m t) _ = _
  cases m t <;> rfl

theorem visit_apply (m : Pass α) (t : Traversal) :
    visit m t = if t.stops then .error .cancelled else m t.tick := by
  have h : visit m t = (do
      if t.stops then throw .cancelled
      modify Traversal.tick
      m : Pass α) t := rfl
  rw [h]
  split <;> rfl

/-- A visit looks at the token and goes on. -/
theorem visit_eq (m : Pass α) : visit m = visit (pure ()) >>= fun _ => m := by
  funext t
  rw [bind_apply, visit_apply, visit_apply]
  split <;> rfl

theorem ownNumbers_eq (m : Part) : ownNumbers m = (do
    let outer ← fun t => .ok (t.numbering, t)
    modify fun t => { t with numbering := ∅ }
    let fragments ← m
    modify fun t => { t with numbering := outer }
    pure fragments) := rfl

/-- What passes do to the traversal at a time. -/
inductive Step : (α : Type) → Pass α → Prop where
  | done {α : Type} (a : α) : Step α (pure a)
  | look : Step Unit (visit (pure ()))
  | cancel (cancels : Bool) : Step Unit (cancelIf cancels)
  | reference (key : String) : Step Nat (modifyGet fun t => t.reference key)
  | numbering : Step Numbering fun t => .ok (t.numbering, t)
  | renumber (numbering : Numbering) : Step Unit (modify fun t => { t with numbering })

/-- Steps do not go into documents of scripts. -/
theorem Step.ne_tooDeep {m : Pass α} (h : Step α m) (t : Traversal) : m t ≠ .error .tooDeep := by
  intro ht
  cases h with
  | look =>
    rw [visit_apply] at ht
    split at ht <;> cases ht
  | _ => cases ht

/-! ### Parts -/

section

variable [Memory] (s : Scope)

theorem each_eq (l : List Node) : each s l = l.map (node s) := by
  induction l with
  | nil => rfl
  | cons n r ih => rw [each, ih, List.map_cons]

theorem numbered_eq (items : List (NumberedItem Node)) :
    numbered s items = items.map (NumberedItem.map (node s)) := by
  induction items with
  | nil => rfl
  | cons i r ih => rw [numbered, ih]; rfl

theorem tasks_eq (items : List (TaskItem Node)) : tasks s items = items.map (TaskItem.map (node s)) := by
  induction items with
  | nil => rfl
  | cons i r ih => rw [tasks, ih]; rfl

theorem groups_eq (groups : List (DefinitionGroup Node)) :
    Html.groups s groups = groups.map (DefinitionGroup.map (node s)) := by
  induction groups with
  | nil => rfl
  | cons g r ih => rw [Html.groups, ih, each_eq, each_eq]; rfl

theorem row_eq (cells : Row Node) : row s cells = cells.map (node s) := by
  induction cells with
  | nil => rfl
  | cons cell? r ih =>
    cases cell? with
    | none => exact congrArg (none :: ·) ih
    | some cell => exact congrArg (some ⟨node s cell.content, cell.alignment⟩ :: ·) ih

theorem rows_eq (l : List (Row Node)) : rows s l = l.map (Row.map (node s)) := by
  induction l with
  | nil => rfl
  | cons cells r ih => rw [rows, ih, row_eq]; rfl

theorem node_table (t : Table Node) : node s (.table t) = visit (table (t.map (node s))) := by
  obtain ⟨columns, alignments, headers, bodyRows, caption, id⟩ := t
  rw [node, rows_eq, rows_eq]
  rfl

omit [Memory] in
theorem footnoteReference_eq (key : String) (autoExpand : Bool) : footnoteReference s key autoExpand =
    if (s.document.footnotes.get? key).isSome then
      match if autoExpand then s.inPlace key else none with
      | some content => content
      | none => do
        let number ← modifyGet fun t => t.reference key
        pure [footnoteNumber number]
    else pure [] := by
  rw [footnoteReference]
  cases s.document.footnotes.get? key <;> rfl

theorem expanding_evaluator? (levels : Nat) (expanding : List String) :
    (s.expanding levels expanding).evaluator? = s.evaluator? := by
  cases levels <;> rfl

theorem expanding_nested (levels : Nat) (expanding : List String) :
    (s.expanding levels expanding).nested = s.nested := by
  cases levels <;> rfl

theorem expanding_document (levels : Nat) (expanding : List String) :
    (s.expanding levels expanding).document = s.document := by
  cases levels <;> rfl

theorem inPlace_expanding {levels : Nat} (expanding : List String) (key : String) :
    (s.expanding (levels + 1) expanding).inPlace key =
      if key ∈ expanding then none
      else (s.document.footnotes.get? key).map fun f =>
        footnoteContent (s.expanding levels (key :: expanding)) f.content := by
  simp only [Scope.expanding, List.contains_eq_mem, decide_eq_true_eq]

end

/-- A row for which there is enough memory. -/
theorem tableRow_eq (columns : Nat) (tag : Tag) (row : Row Part) :
    tableRow columns tag row = wrapped .tr [] (inOrder ((row.place columns).map (placedCell tag))) := rfl

/-! ### Compositional properties -/

structure Compositional (Q : (α : Type) → Pass α → List String → Prop) : Prop where
  done {α : Type} (a : α) : Q α (pure a) []
  andThen {α β : Type} {m : Pass α} {f : α → Pass β} {k l : List String} :
    Q α m k → (∀ a, Q β (f a) l) → Q β (m >>= f) (k ++ l)
  visit {m : Part} {k : List String} : Q _ m k → Q _ (visit m) k

variable {ι : Type}

/-- A compositional property of passes abreast, which may be different passes with results of one type. -/
structure Abreast (Q : (α : Type) → (ι → Pass α) → List String → Prop) : Prop where
  done {α : Type} (a : α) : Q α (fun _ => pure a) []
  andThen {α β : Type} {m : ι → Pass α} {f : ι → α → Pass β} {k l : List String} :
    Q α m k → (∀ a, Q β (fun x => f x a) l) → Q β (fun x => m x >>= f x) (k ++ l)
  visit {m : ι → Part} {k : List String} : Q _ m k → Q _ (fun x => visit (m x)) k

/-- A property of one pass is one of passes abreast. -/
theorem Compositional.abreast {Q : (α : Type) → Pass α → List String → Prop} (h : Compositional Q) :
    Abreast fun α (m : Unit → Pass α) k => Q α (m ()) k where
  done := h.done
  andThen := h.andThen
  visit := h.visit

namespace Abreast

variable {Q : (α : Type) → (ι → Pass α) → List String → Prop} (h : Abreast Q)
include h

theorem map {m : ι → Pass α} {f : ι → α → Pass β} {k : List String} (hm : Q α m k)
    (hf : ∀ a, Q β (fun x => f x a) []) : Q β (fun x => m x >>= f x) k := by
  have hmf := h.andThen hm hf
  rwa [List.append_nil] at hmf

omit h in
/-- It is enough that all steps have the property and that sequences keep it. -/
theorem ofSteps (hs : ∀ {α : Type} {m : Pass α} {k : List String}, Step α m → Q α (fun _ => m) k)
    (ha : ∀ {α β : Type} {m : ι → Pass α} {f : ι → α → Pass β} {k l : List String},
      Q α m k → (∀ a, Q β (fun x => f x a) l) → Q β (fun x => m x >>= f x) (k ++ l)) : Abreast Q where
  done a := hs (.done a)
  andThen := ha
  visit {m k} hm := by
    have hv := ha (k := []) (hs .look) fun _ => hm
    simp only [← visit_eq] at hv
    exact hv

theorem wrapped {m : ι → Part} {k : List String} (hm : Q _ m k) (tag : Tag) (attributes : Attributes) :
    Q _ (fun x => wrapped tag attributes (m x)) k := h.map hm fun _ => h.done _

/-- A script has a property without keys if the document that it may return has it, and the token may be fired. -/
theorem script {s : ι → Scope} {evaluator? : Option Evaluator} {profile : Profile}
    (he : ∀ x, (s x).evaluator? = evaluator?) (hp : ∀ x, (s x).profile = profile) {expression : String}
    (hn : ∀ evaluate d, evaluator? = some evaluate →
      (evaluate expression).result = .ok (.document d) → Q _ (fun x => (s x).nested d) [])
    (hc : ∀ evaluate expression, evaluator? = some evaluate →
      Q _ (fun _ => cancelIf (evaluate expression).cancels) []) :
    Q _ (fun x => script (s x) expression) [] := by
  simp only [Html.script, he]
  cases evaluator? with
  | none => exact h.done _
  | some evaluate =>
    refine h.map (hc evaluate expression rfl) fun _ => ?_
    cases hr : (evaluate expression).result with
    | error e => exact h.done _
    | ok v =>
      cases v with
      | document d => exact hn evaluate d rfl hr
      | _ =>
        simp only [scriptValue, hp]
        split <;> exact h.done _

/-- Documents inside others give numbers of their own. -/
theorem ownNumbers (hs : ∀ {α : Type} {m : Pass α}, Step α m → Q α (fun _ => m) []) {m : ι → Part}
    (hm : Q _ m []) : Q _ (fun x => ownNumbers (m x)) [] := by
  simp only [ownNumbers_eq]
  refine h.andThen (k := []) (hs .numbering) fun outer => ?_
  refine h.andThen (k := []) (hs (.renumber ∅)) fun _ => ?_
  exact h.andThen hm fun _ => h.andThen (k := []) (hs (.renumber outer)) fun _ => h.done _

/-- The number of a footnote, in the text. -/
theorem number {key : String} (hr : Q Nat (fun _ => modifyGet fun t => t.reference key) []) : Q _ (fun _ => do
    let number ← modifyGet fun t => t.reference key
    pure [footnoteNumber number]) [] := h.map hr fun _ => h.done _

/-- References have a property without keys if the contents that stand in their places have it. -/
theorem declaredReference {s : ι → Scope} {key : String} {declared : Bool}
    (hd : ∀ x, ((s x).document.footnotes.get? key).isSome = declared)
    (hr : Q Nat (fun _ => modifyGet fun t => t.reference key) [])
    (hi : (∀ x, (s x).inPlace key = none) ∨ ∃ content : ι → Part,
      (∀ x, (s x).inPlace key = some (content x)) ∧ Q _ content [])
    (autoExpand : Bool) : Q _ (fun x => footnoteReference (s x) key autoExpand) [] := by
  simp only [footnoteReference_eq, hd]
  cases declared with
  | false => exact h.done []
  | true =>
    cases autoExpand with
    | false => exact h.number hr
    | true =>
      obtain hi | ⟨content, hi, hc⟩ := hi
      · simp only [hi, if_true]
        exact h.number hr
      · simp only [hi, if_true]
        exact hc

theorem footnoteReference {s : ι → Scope} {D : Document} (hD : ∀ x, (s x).document = D) {key : String}
    (hr : Q Nat (fun _ => modifyGet fun t => t.reference key) [])
    (hi : (∀ x, (s x).inPlace key = none) ∨ ∃ content : ι → Part,
      (∀ x, (s x).inPlace key = some (content x)) ∧ Q _ content [])
    (autoExpand : Bool) : Q _ (fun x => footnoteReference (s x) key autoExpand) [] := by
  have hd (x : ι) : ((s x).document.footnotes.get? key).isSome = (D.footnotes.get? key).isSome := by rw [hD]
  exact h.declaredReference hd hr hi autoExpand

theorem inOrder {ν : Type} {items : List ν} {f : ι → ν → Part} {g : ν → List String}
    (hf : ∀ i ∈ items, Q _ (fun x => f x i) (g i)) :
    Q _ (fun x => inOrder (items.map (f x))) (items.flatMap g) := by
  induction items with
  | nil => exact h.done []
  | cons i r ih =>
    rw [List.flatMap_cons]
    refine h.andThen (hf i (List.mem_cons_self ..)) fun _ => ?_
    exact h.map (ih fun j hj => hf j (List.mem_cons_of_mem i hj)) fun _ => h.done _

section

variable {ν : Type} {f : ι → ν → Part} {g : ν → List String}

theorem placedCell (tag : Tag) {p : Placement ν} (hp : ∀ n ∈ p.contents, Q _ (fun x => f x n) (g n)) :
    Q _ (fun x => placedCell tag (p.map (f x))) (p.contents.flatMap g) := by
  obtain ⟨column, span, cell?⟩ := p
  let attributes : Attributes := if span > 1 then [(.colspan, toString span)] else []
  show Q _ (fun x => Html.wrapped tag attributes (((cell?.map (Cell.map (f x))).map Cell.content).getD (pure []))) _
  refine h.wrapped ?_ tag _
  cases cell? with
  | none => exact h.done []
  | some cell =>
    have hg : (Placement.mk column span (some cell)).contents.flatMap g = g cell.content :=
      List.append_nil _
    rw [hg]
    exact hp cell.content (List.mem_singleton_self _)

theorem tableRow (columns : Nat) (tag : Tag) {cells : Row ν}
    (hp : ∀ n ∈ cells.placed columns, Q _ (fun x => f x n) (g n)) :
    Q _ (fun x => tableRow columns tag (cells.map (f x))) ((cells.placed columns).flatMap g) := by
  simp only [tableRow_eq, Row.place_map, List.map_map]
  rw [Row.placed, List.flatMap_assoc]
  refine h.wrapped (h.inOrder fun p hm => h.placedCell tag fun n hn => hp n ?_) .tr []
  exact List.mem_flatMap.2 ⟨p, hm, hn⟩

theorem table_of_rows (M : ι → Memory) {t : Table ν} (ht : ∀ tag, ∀ cells ∈ t.allRows,
      Q _ (fun x => @Html.tableRow (M x) t.columns.toNat tag (cells.map (f x)))
        ((cells.placed t.columns.toNat).flatMap g)) :
    Q _ (fun x => @table (M x) (t.map (f x))) (t.placed.flatMap g) := by
  obtain ⟨columns, alignments, headers, bodyRows, caption, id⟩ := t
  have row {rows : List (Row ν)} (hr : ∀ cells ∈ rows, cells ∈ headers ++ bodyRows) (tag : Tag) :
      Q _ (fun x => Html.inOrder ((rows.map (Row.map (f x))).map (@Html.tableRow (M x) columns.toNat tag)))
        (rows.flatMap fun cells => (cells.placed columns.toNat).flatMap g) := by
    simp only [List.map_map]
    exact h.inOrder fun cells hc => ht tag cells (hr cells hc)
  rw [Table.placed, List.flatMap_assoc, Table.allRows, List.flatMap_append]
  simp only [Html.table, Table.map]
  refine h.wrapped ?_ .table _
  refine h.andThen (row (fun cells hc => List.mem_append_left _ hc) .th) fun _ => ?_
  exact h.map (row (fun cells hc => List.mem_append_right _ hc) .td) fun _ => h.done _

theorem table {t : Table ν} (ht : ∀ n ∈ t.placed, Q _ (fun x => f x n) (g n)) :
    Q _ (fun x => table (t.map (f x))) (t.placed.flatMap g) :=
  h.table_of_rows (fun _ => .unlimited) fun tag cells hc => h.tableRow _ tag fun n hn =>
    ht n (List.mem_flatMap.2 ⟨cells, hc, hn⟩)

end

end Abreast

theorem Compositional.map {Q : (α : Type) → Pass α → List String → Prop} (h : Compositional Q) {m : Pass α}
    {f : α → Pass β} {k : List String} (hm : Q α m k) (hf : ∀ a, Q β (f a) []) : Q β (m >>= f) k := by
  have hmf := h.andThen hm hf
  rwa [List.append_nil] at hmf

theorem Compositional.script {Q : (α : Type) → Pass α → List String → Prop} (h : Compositional Q) {s : Scope}
    (hn : ∀ d, Q _ (s.nested d) [])
    (hc : ∀ evaluate expression, s.evaluator? = some evaluate → Q _ (cancelIf (evaluate expression).cancels) [])
    (expression : String) : Q _ (script s expression) [] :=
  h.abreast.script (s := fun _ => s) (fun _ => rfl) (fun _ => rfl) (fun _ d _ _ => hn d) hc

/-! ### Nodes -/

def Scope.sight (s : Scope) (takes : MediaItem → Bool) : Sight := ⟨takes, s.document.references⟩

/-- What a property says about the pieces of nodes that depend on the memories and scopes, if all nodes are such
as `A` says. The documents have the references and metadata of `d`. -/
structure Together (M : ι → Memory) (Q : (α : Type) → (ι → Pass α) → List String → Prop) (d : Document)
    (A : Node → Prop) (s : ι → Scope) (keys : ShownLink → List String) : Prop where
  references (x : ι) : (s x).document.references = d.references
  metadata (x : ι) : (s x).document.metadata = d.metadata
  reference (key : String) (autoExpand : Bool) :
    Q _ (fun x => footnoteReference (s x) key autoExpand) (keys ⟨.html, key, autoExpand⟩)
  script {expression : String} {alone : Bool} : A (.inlineScript expression alone) →
    Q _ (fun x => script (s x) expression) []
  table {t : Table Node} {f : ι → Node → Part} {g : Node → List String} : A (.table t) →
    (∀ n ∈ t.placed, Q _ (fun x => f x n) (g n)) → Q _ (fun x => @table (M x) (t.map (f x))) (t.placed.flatMap g)

namespace Together

variable (M : ι → Memory) {Q : (α : Type) → (ι → Pass α) → List String → Prop} {d : Document} {A : Node → Prop}
  {s : ι → Scope} {keys : ShownLink → List String} (hQ : Abreast Q) {c : Sight}
include hQ

theorem nodes {l : List Node}
    (hl : ∀ n ∈ l, Q _ (fun x => @node (M x) (s x) n) ((c.shown .html n).flatMap keys)) :
    Q _ (fun x => @nodes (M x) (s x) l) ((c.shownAll .html l).flatMap keys) := by
  induction l with
  | nil => exact hQ.done []
  | cons n r ih =>
    rw [Sight.shownAll, List.flatMap_append]
    refine hQ.andThen (hl n (List.mem_cons_self ..)) fun _ => ?_
    exact hQ.map (ih fun m hm => hl m (List.mem_cons_of_mem n hm)) fun _ => hQ.done _

variable {M} (h : Together M Q d A s keys) (hc : c.references = d.references)
include h hc

/-- The property holds of every node, with the keys of the references shown with it. -/
theorem node {n : Node} (hn : n.Throughout A) :
    Q _ (fun x => @node (M x) (s x) n) ((c.shown .html n).flatMap keys) := by
  induction n using Node.induction with
  | step n ih =>
    have ih (m : Node) (hm : m ∈ n.children) := ih m hm (hn.child hm)
    have all {l : List Node} (hl : ∀ m ∈ l, m ∈ n.children) := nodes M hQ fun m hm => ih m (hl m hm)
    cases n with
    | footnoteReference key autoExpand =>
      have hk : (c.shown .html (.footnoteReference key autoExpand)).flatMap keys =
        keys ⟨.html, key, autoExpand⟩ := List.append_nil _
      rw [hk]
      exact hQ.visit (h.reference key autoExpand)
    | strong l | emphasize l | delete l | insert l | underline l | superscript l | subscript l
    | link _ l | abbreviation _ l | paragraph l | header _ l | blockQuote l | insertBlocks l
    | deleteBlocks l | aligned _ l => exact hQ.visit (hQ.wrapped (all fun _ hm => hm) _ _)
    | linkReference label l =>
      simp only [Html.node, h.references]
      refine hQ.visit ?_
      split
      · exact hQ.wrapped (all fun _ hm => hm) _ _
      · exact all fun _ hm => hm
    | multimedia items l alone =>
      cases items with
      | nil => exact hQ.visit (all fun _ hm => hm)
      | cons item r => exact hQ.visit (hQ.done _)
    | multimediaReference label l alone =>
      simp only [Html.node, h.references]
      rw [Sight.shown, hc]
      refine hQ.visit ?_
      cases d.references.get? label with
      | none => exact all fun _ hm => hm
      | some item => exact hQ.done _
    | metaReference key | detailsReference =>
      simp only [Html.node, metaText, h.metadata]
      exact hQ.visit (hQ.done _)
    | inlineScript expression alone => exact hQ.visit (h.script hn.self)
    | bulletList l =>
      simp only [Html.node, each_eq, List.map_map]
      rw [Sight.shown, Sight.shownAll_eq, List.flatMap_assoc]
      exact hQ.visit (hQ.wrapped (hQ.inOrder fun m hm => hQ.wrapped (ih m hm) .li []) _ _)
    | numberedList items =>
      simp only [Html.node, numbered_eq, List.map_map]
      rw [Sight.shown, Sight.shownNumbered_eq, List.flatMap_assoc]
      refine hQ.visit (hQ.wrapped (hQ.inOrder fun i hi => ?_) _ _)
      simp only [Function.comp_apply, numberedItem, NumberedItem.map]
      exact hQ.wrapped (ih _ (Node.mem_children_numberedList hi)) _ _
    | taskList items =>
      simp only [Html.node, tasks_eq, List.map_map]
      rw [Sight.shown, Sight.shownTasks_eq, List.flatMap_assoc]
      refine hQ.visit (hQ.wrapped (hQ.inOrder fun i hi => ?_) _ _)
      let box : Fragment := .text (if i.checked then "☑ " else "☐ ")
      show Q _ (fun x =>
        Html.wrapped .li [] (@Html.node (M x) (s x) i.child >>= fun content => pure (box :: content))) _
      exact hQ.wrapped (hQ.map (ih _ (Node.mem_children_taskList hi)) fun _ => hQ.done _) _ _
    | definitionList groups =>
      simp only [Html.node, groups_eq, List.map_map]
      rw [Sight.shown, Sight.shownGroups_eq, List.flatMap_assoc]
      refine hQ.visit (hQ.wrapped (hQ.inOrder fun g hg => ?_) _ _)
      rw [List.flatMap_append, List.flatMap_assoc, List.flatMap_assoc]
      refine hQ.andThen ?_ fun _ => hQ.map ?_ fun _ => hQ.done _
      · simp only [DefinitionGroup.map, List.map_map]
        exact hQ.inOrder fun m hm => hQ.wrapped (ih m (Node.mem_children_terms hg hm)) _ _
      · simp only [DefinitionGroup.map, List.map_map]
        exact hQ.inOrder fun m hm => hQ.wrapped (ih m (Node.mem_children_descriptions hg hm)) _ _
    | table t =>
      simp only [node_table]
      rw [Sight.shown_table, List.flatMap_assoc]
      refine hQ.visit (h.table hn.self fun m hm => ih m ?_)
      obtain ⟨row, hr, hm⟩ := List.mem_flatMap.1 hm
      obtain ⟨cell, hc, rfl⟩ := Row.mem_of_mem_placed hm
      exact Node.mem_cellContents hr hc
    | singleChild m | standalone m => exact hQ.visit (ih m (List.mem_singleton_self m))
    | nestedBlock l | htmlBlock l => exact hQ.visit (all fun _ hm => hm)
    | _ => exact hQ.visit (hQ.done _)

theorem all {l : List Node} (hl : ∀ n ∈ l, n.Throughout A) :
    Q _ (fun x => @Html.nodes (M x) (s x) l) ((c.shownAll .html l).flatMap keys) :=
  nodes M hQ fun n hn => node hQ h hc (hl n hn)

/-- Footnotes lose the bounds of their paragraphs, but no references. -/
theorem footnoteContent {l : List Node} (hl : ∀ n ∈ l, n.Throughout A) :
    Q _ (fun x => @footnoteContent (M x) (s x) l) ((c.shownAll .html l).flatMap keys) := by
  induction l with
  | nil => exact hQ.done []
  | cons n r ih =>
    obtain ⟨hn, hr⟩ := List.forall_mem_cons.1 hl
    rw [Sight.shownAll, List.flatMap_append]
    cases n with
    | paragraph l => exact hQ.andThen (all hQ h hc fun m hm => hn.child hm) fun _ => hQ.map (ih hr) fun _ => hQ.done _
    | _ => exact hQ.andThen (node hQ h hc hn) fun _ => hQ.map (ih hr) fun _ => hQ.done _

end Together

/-- The scopes of one document in which the same footnotes are being expanded. -/
theorem Abreast.expanding {Q : (α : Type) → (ι → Pass α) → List String → Prop} (hQ : Abreast Q)
    (hs : ∀ {α : Type} {m : Pass α}, Step α m → Q α (fun _ => m) []) {M : ι → Memory} {A : Node → Prop}
    {evaluator? : Option Evaluator} {profile : Profile} {nested : ι → Document → Part}
    (hn : ∀ {expression alone}, A (.inlineScript expression alone) → ∀ evaluate d, evaluator? = some evaluate →
      (evaluate expression).result = .ok (.document d) → Q _ (fun x => nested x d) [])
    (ht : ∀ {t : Table Node} {f : ι → Node → Part} {g : Node → List String}, A (.table t) →
      (∀ n ∈ t.placed, Q _ (fun x => f x n) (g n)) →
        Q _ (fun x => @Html.table (M x) (t.map (f x))) (t.placed.flatMap g))
    {D : Document} (hD : D.Throughout A) (levels : Nat) (expanding : List String) : Together M Q D A
      (fun x => @Scope.expanding (M x) ⟨evaluator?, profile, D, fun _ => none, nested x⟩ levels expanding)
      fun _ => [] := by
  let s (levels : Nat) (expanding : List String) (x : ι) : Scope :=
    @Scope.expanding (M x) ⟨evaluator?, profile, D, fun _ => none, nested x⟩ levels expanding
  have together (levels : Nat) (expanding : List String) (hr : ∀ key autoExpand,
      Q _ (fun x => Html.footnoteReference (s levels expanding x) key autoExpand) []) :
      Together M Q D A (s levels expanding) fun _ => [] := by
    have hd (x : ι) : (s levels expanding x).document = D := @expanding_document (M x) ..
    have he (x : ι) : (s levels expanding x).evaluator? = evaluator? := @expanding_evaluator? (M x) ..
    have hi (x : ι) : (s levels expanding x).nested = nested x := @expanding_nested (M x) ..
    have hp (x : ι) : (s levels expanding x).profile = profile := by
      cases levels <;> rfl
    refine ⟨fun x => by rw [hd], fun x => by rw [hd], hr, fun hA => ?_, ht⟩
    refine hQ.script he hp (fun evaluate d he hr => ?_) fun _ _ _ => hs (.cancel _)
    simp only [hi]
    exact hn hA evaluate d he hr
  induction levels generalizing expanding with
  | zero =>
    refine together 0 expanding fun key autoExpand => ?_
    exact hQ.footnoteReference (s := s 0 expanding) (fun _ => rfl) (hs (.reference key)) (.inl fun _ => rfl) autoExpand
  | succ levels ih =>
    refine together (levels + 1) expanding fun key autoExpand => ?_
    refine hQ.footnoteReference (s := s (levels + 1) expanding) (fun _ => rfl) (hs (.reference key)) ?_ autoExpand
    simp only [s, inPlace_expanding]
    split
    · exact .inl fun _ => rfl
    · cases hf : D.footnotes.get? key with
      | none => exact .inl fun _ => rfl
      | some f =>
        have hc := (ih (key :: expanding)).footnoteContent hQ (c := ⟨fun _ => false, D.references⟩) rfl
          (hD.footnote hf)
        rw [List.flatMap_eq_nil_iff.2 fun _ _ => rfl] at hc
        exact .inr ⟨_, fun _ => rfl, hc⟩

/-- What a property says about the pieces of nodes that depend on the scope. -/
structure Traversed (Q : (α : Type) → Pass α → List String → Prop) (s : Scope)
    (keys : ShownLink → List String) : Prop where
  reference (key : String) (autoExpand : Bool) :
    Q _ (footnoteReference s key autoExpand) (keys ⟨.html, key, autoExpand⟩)
  script (expression : String) : Q _ (script s expression) []

namespace Traversed

variable {Q : (α : Type) → Pass α → List String → Prop} {s : Scope} {keys : ShownLink → List String}
  (hQ : Compositional Q) (takes : MediaItem → Bool) (h : Traversed Q s keys)
include h

include hQ

theorem together : Together (fun _ => .unlimited) (fun α (m : Unit → Pass α) k => Q α (m ()) k) s.document
    (fun _ => True) (fun _ => s) keys where
  references _ := rfl
  metadata _ := rfl
  reference := h.reference
  script {expression _} _ := h.script expression
  table _ := hQ.abreast.table

theorem all (l : List Node) : Q _ (Html.nodes s l) (((s.sight takes).shownAll .html l).flatMap keys) :=
  (h.together hQ).all hQ.abreast rfl fun n _ => n.throughout_true

theorem footnoteContent (l : List Node) :
    Q _ (footnoteContent s l) (((s.sight takes).shownAll .html l).flatMap keys) :=
  (h.together hQ).footnoteContent hQ.abreast rfl fun n _ => n.throughout_true

end Traversed

end Html

end XamlDoc
