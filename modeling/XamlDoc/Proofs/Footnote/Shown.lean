import XamlDoc.Footnote.Nested
import XamlDoc.Proofs.Document.Contents
import XamlDoc.Proofs.Document.Induction

/-!
# References that are shown

The references to footnotes that come to be shown with a node, in order. Not all references below a
node are: entries of table rows past the last column have no place, and media that are shown hide their
alternative. Inside HTML an image is shown for any item, elsewhere only if a handler takes the item.
-/

namespace XamlDoc

inductive View where
  | blocks
  | html
  deriving DecidableEq, Repr

structure ShownLink where
  view : View
  link : FootnoteLink
  deriving DecidableEq, Repr

theorem ShownLink.flatMap_congr {α : Type} {g : ShownLink → List α} (hg : ∀ link v v', g ⟨v, link⟩ = g ⟨v', link⟩)
    {l l' : List ShownLink} (h : l.map link = l'.map link) : l.flatMap g = l'.flatMap g := by
  have forget (l : List ShownLink) : l.flatMap g = (l.map link).flatMap fun k => g ⟨.html, k⟩ := by
    rw [List.flatMap_map]
    exact congrArg (fun f => l.flatMap f) (funext fun s => hg s.link s.view .html)
  rw [forget, forget, h]

namespace Node

/-- The children that have a place. -/
def placedChildren : Node → List Node
  | table t => t.placed
  | n => n.children

theorem mem_children_of_mem_placedChildren {n m : Node} (h : m ∈ n.placedChildren) : m ∈ n.children := by
  cases n with
  | table t =>
    obtain ⟨row, hr, hm⟩ := List.mem_flatMap.1 h
    obtain ⟨cell, hc, rfl⟩ := Row.mem_of_mem_placed hm
    exact mem_cellContents hr hc
  | _ => exact h

/-- The view of the children of a node in the view `v`. -/
def viewInside (v : View) : Node → View
  | header _ _ | htmlBlock _ => .html
  | _ => v

def isMedia : Node → Bool
  | multimedia _ _ _ | multimediaReference _ _ _ => true
  | _ => false

end Node

/-- What decides, besides the nodes, which references are shown. -/
structure Sight where
  /-- The media item is rendered by its handler. -/
  takes : MediaItem → Bool
  references : Directory MediaItem

namespace Sight

/-- The items are shown instead of their alternative. -/
def replaces (c : Sight) (items : List MediaItem) : View → Bool
  | .blocks => items.any c.takes
  | .html => !items.isEmpty

mutual

def shown (c : Sight) (v : View) : Node → List ShownLink
  | .footnoteReference key autoExpand => [⟨v, key, autoExpand⟩]
  | .strong n | .emphasize n | .delete n | .insert n | .underline n | .superscript n | .subscript n
  | .link _ n | .linkReference _ n | .abbreviation _ n | .paragraph n | .bulletList n
  | .blockQuote n | .insertBlocks n | .deleteBlocks n | .aligned _ n | .nestedBlock n =>
    shownAll c v n
  | .header _ n | .htmlBlock n => shownAll c .html n
  | .multimedia items n _ => if c.replaces items v then [] else shownAll c v n
  | .multimediaReference label n _ =>
    if c.replaces (c.references.get? label).toList v then [] else shownAll c v n
  | .singleChild n | .standalone n => shown c v n
  | .numberedList items => shownNumbered c v items
  | .taskList items => shownTasks c v items
  | .definitionList groups => shownGroups c v groups
  | .table ⟨columns, _, headers, rows, _, _⟩ =>
    (shownRows c v headers ++ shownRows c v rows).flatMap fun row =>
      (row.placed columns.toNat).flatten
  | _ => []

def shownAll (c : Sight) (v : View) : List Node → List ShownLink
  | [] => []
  | n :: r => shown c v n ++ shownAll c v r

def shownNumbered (c : Sight) (v : View) : List (NumberedItem Node) → List ShownLink
  | [] => []
  | ⟨_, n⟩ :: r => shown c v n ++ shownNumbered c v r

def shownTasks (c : Sight) (v : View) : List (TaskItem Node) → List ShownLink
  | [] => []
  | ⟨_, n⟩ :: r => shown c v n ++ shownTasks c v r

def shownGroups (c : Sight) (v : View) : List (DefinitionGroup Node) → List ShownLink
  | [] => []
  | ⟨terms, descriptions⟩ :: r => shownAll c v terms ++ shownAll c v descriptions ++ shownGroups c v r

def shownRows (c : Sight) (v : View) : List (Row Node) → List (Row (List ShownLink))
  | [] => []
  | row :: r => shownRow c v row :: shownRows c v r

def shownRow (c : Sight) (v : View) : Row Node → Row (List ShownLink)
  | [] => []
  | none :: r => none :: shownRow c v r
  | some ⟨n, alignment⟩ :: r => some ⟨shown c v n, alignment⟩ :: shownRow c v r

end

variable (c : Sight) (v : View)

/-! ### Children -/

theorem shownAll_eq (l : List Node) : c.shownAll v l = l.flatMap (c.shown v) := by
  induction l with
  | nil => rfl
  | cons n r ih => rw [shownAll, ih, List.flatMap_cons]

theorem shownNumbered_eq (items : List (NumberedItem Node)) :
    c.shownNumbered v items = items.flatMap fun i => c.shown v i.child := by
  induction items with
  | nil => rfl
  | cons i r ih => rw [shownNumbered, ih, List.flatMap_cons]

theorem shownTasks_eq (items : List (TaskItem Node)) :
    c.shownTasks v items = items.flatMap fun i => c.shown v i.child := by
  induction items with
  | nil => rfl
  | cons i r ih => rw [shownTasks, ih, List.flatMap_cons]

theorem shownGroups_eq (groups : List (DefinitionGroup Node)) :
    c.shownGroups v groups = groups.flatMap fun g =>
      g.terms.flatMap (c.shown v) ++ g.descriptions.flatMap (c.shown v) := by
  induction groups with
  | nil => rfl
  | cons g r ih => rw [shownGroups, ih, shownAll_eq, shownAll_eq, List.flatMap_cons]

theorem shownRow_eq (row : Row Node) : c.shownRow v row = row.map (c.shown v) := by
  induction row with
  | nil => rfl
  | cons cell? r ih =>
    cases cell? with
    | none => exact congrArg (none :: ·) ih
    | some cell => exact congrArg (some ⟨c.shown v cell.content, cell.alignment⟩ :: ·) ih

theorem shownRows_eq (rows : List (Row Node)) :
    c.shownRows v rows = rows.map (Row.map (c.shown v)) := by
  induction rows with
  | nil => rfl
  | cons row r ih => rw [shownRows, ih, shownRow_eq, List.map_cons]

theorem shown_table (t : Table Node) : c.shown v (.table t) = t.placed.flatMap (c.shown v) := by
  obtain ⟨columns, alignments, headers, rows, caption, id⟩ := t
  rw [shown, shownRows_eq, shownRows_eq, ← List.map_append, List.flatMap_map, Table.placed,
    List.flatMap_assoc]
  congr 1
  funext row
  rw [Row.placed_map, List.flatMap_def]

/-- The node is media that are shown instead of their alternative. -/
def replacesNode (c : Sight) (v : View) : Node → Bool
  | .multimedia items _ _ => c.replaces items v
  | .multimediaReference label _ _ => c.replaces (c.references.get? label).toList v
  | _ => false

/-- What is shown with a node, in terms of its children. -/
theorem shown_eq (n : Node) : c.shown v n = (n.footnoteLink?.map (ShownLink.mk v)).toList ++
    if c.replacesNode v n then [] else n.placedChildren.flatMap (c.shown (n.viewInside v)) := by
  cases n with
  | strong l | emphasize l | delete l | insert l | underline l | superscript l | subscript l
  | link _ l | linkReference _ l | abbreviation _ l | paragraph l | bulletList l | blockQuote l
  | insertBlocks l | deleteBlocks l | aligned _ l | nestedBlock l => exact c.shownAll_eq v l
  | header _ l | htmlBlock l => exact c.shownAll_eq .html l
  | multimedia items l alone | multimediaReference label l alone =>
    rw [shown, shownAll_eq]
    rfl
  | singleChild m | standalone m =>
    rw [shown]
    exact (List.append_nil _).symm
  | numberedList items =>
    rw [shown, shownNumbered_eq]
    exact (List.flatMap_map ..).symm
  | taskList items =>
    rw [shown, shownTasks_eq]
    exact (List.flatMap_map ..).symm
  | definitionList groups =>
    rw [shown, shownGroups_eq]
    simp [Node.footnoteLink?, replacesNode, Node.placedChildren, Node.children, Node.viewInside, List.flatMap_assoc]
  | table t => exact c.shown_table v t
  | _ => rfl

/-- What is shown with a node is its own reference, or shown with one of its children. -/
theorem shown_cases {c : Sight} {v : View} {n : Node} {s : ShownLink} (h : s ∈ c.shown v n) :
    n.footnoteLink? = some s.link ∨ ∃ v', ∃ m ∈ n.children, s ∈ c.shown v' m := by
  rw [shown_eq] at h
  rcases List.mem_append.1 h with h | h
  · obtain ⟨link, hl, rfl⟩ := Option.map_eq_some_iff.1 (Option.mem_toList.1 h)
    exact .inl hl
  · split at h
    · cases h
    · obtain ⟨m, hm, hs⟩ := List.mem_flatMap.1 h
      exact .inr ⟨n.viewInside v, m, n.mem_children_of_mem_placedChildren hm, hs⟩

/-- What is shown with a node stands at or below it. -/
theorem link_mem_of_mem_shown {c : Sight} {v : View} {n : Node} {s : ShownLink} (h : s ∈ c.shown v n) :
    s.link ∈ n.walk.filterMap Node.footnoteLink? := by
  induction n using Node.induction generalizing v with
  | step n ih =>
    rw [Node.walk_eq]
    rcases shown_cases h with h | ⟨v', m, hm, hs⟩
    · exact List.mem_filterMap.2 ⟨n, List.mem_cons_self .., h⟩
    · obtain ⟨o, ho, hl⟩ := List.mem_filterMap.1 (ih m hm hs)
      refine List.mem_filterMap.2 ⟨o, List.mem_cons_of_mem n ?_, hl⟩
      exact List.mem_flatMap.2 ⟨m, hm, ho⟩

theorem link_mem_of_mem_shownAll {c : Sight} {v : View} {l : List Node} {s : ShownLink}
    (h : s ∈ c.shownAll v l) : s.link ∈ Node.footnoteLinks l := by
  rw [shownAll_eq] at h
  obtain ⟨n, hn, hs⟩ := List.mem_flatMap.1 h
  obtain ⟨o, ho, hl⟩ := List.mem_filterMap.1 (link_mem_of_mem_shown hs)
  rw [Node.footnoteLinks, Node.walkAll_eq]
  exact List.mem_filterMap.2 ⟨o, List.mem_flatMap.2 ⟨n, hn, ho⟩, hl⟩

/-! ### Views -/

omit c in
theorem map_link_flatMap {l : List Node} {f g : Node → List ShownLink}
    (h : ∀ n ∈ l, (f n).map ShownLink.link = (g n).map ShownLink.link) :
    (l.flatMap f).map ShownLink.link = (l.flatMap g).map ShownLink.link := by
  rw [List.map_flatMap, List.map_flatMap, List.flatMap_def, List.flatMap_def, List.map_congr_left h]

/-- Without media the same references are shown in every view. -/
theorem map_link_shown {n : Node} (h : ∀ m ∈ n.walk, m.isMedia = false) (v v' : View) :
    (c.shown v n).map ShownLink.link = (c.shown v' n).map ShownLink.link := by
  induction n using Node.induction generalizing v v' with
  | step n ih =>
    rw [Node.walk_eq] at h
    have hn : n.isMedia = false := h n (List.mem_cons_self ..)
    have hr (v : View) : c.replacesNode v n = false := by
      cases n with
      | multimedia _ _ _ | multimediaReference _ _ _ => cases hn
      | _ => rfl
    have own (v : View) : (n.footnoteLink?.map (ShownLink.mk v)).toList.map ShownLink.link =
        n.footnoteLink?.toList := by
      cases n.footnoteLink? <;> rfl
    rw [shown_eq, shown_eq, hr, hr, List.map_append, List.map_append, own, own]
    refine congrArg (n.footnoteLink?.toList ++ ·) (map_link_flatMap fun m hm => ?_)
    have hc := Node.mem_children_of_mem_placedChildren hm
    exact ih m hc (fun k hk => h k (List.mem_cons_of_mem n (List.mem_flatMap.2 ⟨m, hc, hk⟩))) _ _

theorem map_link_shownAll {l : List Node} (h : ∀ m ∈ Node.walkAll l, m.isMedia = false) (v v' : View) :
    (c.shownAll v l).map ShownLink.link = (c.shownAll v' l).map ShownLink.link := by
  rw [Node.walkAll_eq] at h
  rw [shownAll_eq, shownAll_eq]
  exact map_link_flatMap fun n hn => c.map_link_shown (fun m hm => h m (List.mem_flatMap.2 ⟨n, hn, hm⟩)) v v'

end Sight

end XamlDoc
