import XamlDoc.Proofs.Footnote.Shown
import XamlDoc.Proofs.Render.Compositional

/-!
# Compositional properties of nodes

The traversal of nodes, gone through once for all compositional properties. What a property has to
say about the pieces that depend on the scope is asked for; the keys that come with a node are then
those of the references shown with it.
-/

namespace XamlDoc

open Rendering Layout Render

/-! ### Parts -/

/-- A node as a part of a block. -/
def Scope.part [Memory] (s : Scope) (n : Node) : Part := ⟨n.margins, n.isInline, node s n⟩

def Scope.sight (s : Scope) (takes : MediaItem → Bool) : Sight := ⟨takes, s.document.references⟩

namespace Render

variable [Memory] (s : Scope)

theorem parts_eq (l : List Node) : parts s l = l.map s.part := by
  induction l with
  | nil => rfl
  | cons n r ih => rw [parts, ih]; rfl

theorem numberedParts_eq (items : List (NumberedItem Node)) :
    numberedParts s items = items.map (NumberedItem.map s.part) := by
  induction items with
  | nil => rfl
  | cons i r ih => rw [numberedParts, ih]; rfl

theorem taskParts_eq (items : List (TaskItem Node)) :
    taskParts s items = items.map (TaskItem.map s.part) := by
  induction items with
  | nil => rfl
  | cons i r ih => rw [taskParts, ih]; rfl

theorem groupParts_eq (groups : List (DefinitionGroup Node)) :
    groupParts s groups = groups.map (DefinitionGroup.map s.part) := by
  induction groups with
  | nil => rfl
  | cons g r ih => rw [groupParts, ih, parts_eq, parts_eq]; rfl

theorem cellParts_eq (row : Row Node) : cellParts s row = row.map s.part := by
  induction row with
  | nil => rfl
  | cons cell? r ih =>
    cases cell? with
    | none => exact congrArg (none :: ·) ih
    | some cell => exact congrArg (some ⟨s.part cell.content, cell.alignment⟩ :: ·) ih

theorem rowParts_eq (rows : List (Row Node)) : rowParts s rows = rows.map (Row.map s.part) := by
  induction rows with
  | nil => rfl
  | cons row r ih => rw [rowParts, ih, cellParts_eq]; rfl

theorem node_table (t : Table Node) (st : Style) :
    node s (.table t) st = block s (Layout.table s.dialect (t.map s.part)) := by
  obtain ⟨columns, alignments, headers, rows, caption, id⟩ := t
  rw [node, rowParts_eq, rowParts_eq]
  rfl

end Render

/-! ### Scripts -/

namespace Compositional

variable {P : (α : Type) → Rendering α → List String → Prop} {s : Scope}
  (hP : Compositional s.dialect (fun _ => []) P)
include hP

theorem scriptValue (hn : ∀ d, P Unit (s.nested d) []) (st : Style) (alone : Bool) (v : ScriptValue) :
    P Unit (scriptValue s st alone v) [] := by
  unfold Render.scriptValue
  split
  · split
    · exact hP.before hP.flush (hP.textBlock _ _)
    · exact hP.silentText _ _
  · split
    · exact hP.before hP.flush (hP.image _)
    · split
      · exact hP.before hP.flush (hn _)
      · exact hP.done ()

theorem scriptError (st : Style) (alone : Bool) (e : ScriptError) : P Unit (scriptError s st alone e) [] := by
  rw [Render.scriptError]
  split
  · exact hP.append _ _
  · exact hP.before hP.flush (hP.inOrder_nil fun line _ => hP.errorBlock _ line)

/-- Scripts have a property without keys if the documents that they return have it, and the token may be fired. -/
theorem script (hn : ∀ d, P Unit (s.nested d) [])
    (hc : ∀ evaluate expression, s.extensions.evaluator? = some evaluate →
      P Unit (cancelIf (evaluate expression).cancels) [])
    (st : Style) (expression : String) (alone : Bool) : P Unit (script s st expression alone) [] := by
  rw [Render.script]
  split
  · exact hP.silentText _ _
  · rename_i evaluate he
    refine hP.before (hc evaluate expression he) ?_
    split
    · exact hP.scriptValue hn _ _ _
    · exact hP.scriptError _ _ _

end Compositional

/-! ### Nodes -/

/-- The media items that are offered for a node. -/
def Scope.items? (s : Scope) : Node → Option (List MediaItem)
  | .multimedia items _ _ => some items
  | .multimediaReference label _ _ => some (s.document.references.get? label).toList
  | _ => none

/-- What a property says about media items with any alternative. -/
def Scope.Offers (P : (α : Type) → Rendering α → List String → Prop) (s : Scope)
    (takes : MediaItem → Bool) (items : List MediaItem) : Prop :=
  ∀ {alternative : Rendering Unit} {k : List String} (st : Style), P Unit alternative k →
    P Unit (media s st alternative items) (if (s.sight takes).replaces items .blocks then [] else k)

/-- The property says so about the media of the node. -/
def Scope.OffersNode (P : (α : Type) → Rendering α → List String → Prop) (s : Scope)
    (takes : MediaItem → Bool) (n : Node) : Prop :=
  ∀ items ∈ s.items? n, s.Offers P takes items

/-- What a property says about the pieces of nodes in the scope, apart from media. The keys of a reference are
given by `keys`. -/
structure Walked (P : (α : Type) → Rendering α → List String → Prop) (s : Scope)
    (takes : MediaItem → Bool) (keys : ShownLink → List String) : Prop where
  visit {m : Rendering Unit} {k : List String} : P Unit m k → P Unit (visit m) k
  reference (st : Style) (key : String) (autoExpand : Bool) :
    P Unit (footnoteReference s st key autoExpand) (keys ⟨.blocks, key, autoExpand⟩)
  code (st : Style) (b : CodeBlock) : P Unit (code s st b) []
  script (st : Style) (expression : String) (alone : Bool) : P Unit (script s st expression alone) []
  details (st : Style) : P Unit (details s st) []
  html (l : List Node) :
    P (List Html.Fragment) (ofPass (Html.nodes s.html l)) (((s.sight takes).shownAll .html l).flatMap keys)

/-- What a property says about the pieces of nodes, media among them. -/
structure Traversed (P : (α : Type) → Rendering α → List String → Prop) (s : Scope)
    (takes : MediaItem → Bool) (keys : ShownLink → List String) : Prop extends Walked P s takes keys where
  media {alternative : Rendering Unit} {k : List String} (st : Style) (items : List MediaItem) :
    P Unit alternative k → P Unit (media s st alternative items)
      (if (s.sight takes).replaces items .blocks then [] else k)

namespace Walked

variable {P : (α : Type) → Rendering α → List String → Prop} {s : Scope} {takes : MediaItem → Bool}
  {keys : ShownLink → List String} (hP : Compositional s.dialect (fun _ => []) P) (h : Walked P s takes keys)

/-- The keys of what is shown with a node. -/
abbrev keysOf (s : Scope) (takes : MediaItem → Bool) (keys : ShownLink → List String) (n : Node) :
    List String := ((s.sight takes).shown .blocks n).flatMap keys

include hP

theorem metaText (st : Style) (key : String) : P Unit (metaText s st key) [] := by
  rw [Render.metaText]
  split
  · exact hP.silentText _ _
  · exact hP.done ()

theorem standaloneEmoji (st : Style) (e : Emoji) : P Unit (standaloneEmoji s st e) [] := by
  rw [Render.standaloneEmoji]
  split
  · exact hP.silentText _ _
  · split
    · exact hP.image _
    · exact hP.silentText _ _

theorem nodes {l : List Node} (hl : ∀ n ∈ l, ∀ st, P Unit (node s n st) (keysOf s takes keys n))
    (st : Style) : P Unit (nodes s l st) (((s.sight takes).shownAll .blocks l).flatMap keys) := by
  induction l with
  | nil => exact hP.done ()
  | cons n r ih =>
    rw [Sight.shownAll, List.flatMap_append]
    exact hP.andThen (hl n (List.mem_cons_self ..) st) fun _ =>
      ih fun m hm => hl m (List.mem_cons_of_mem n hm)

include h

theorem block {m : Rendering Unit} {k : List String} (hm : P Unit m k) : P Unit (block s m) k :=
  h.visit (hP.before hP.flush hm)

theorem standalone (st : Style) {m : Rendering Unit} {k : List String} (hm : P Unit m k) :
    P Unit (standalone s st m) k := block hP h (hP.padded (hP.flushed hm) _ _)

theorem htmlLabel (st : Style) {extra : List Markup.Attribute}
    (he : (extra.map Prod.fst).Sublist ["Style", "FontSize", "TextColor"]) (l : List Node) :
    P Unit (Render.html s st extra l) (((s.sight takes).shownAll .html l).flatMap keys) := by
  rw [← List.append_nil (List.flatMap _ _)]
  exact hP.andThen (h.html l) fun _ => hP.htmlBlock _ he _

/-- The property holds of every node, with the keys of the references shown with it, if it says what it must about
the media at and below the node. -/
theorem node {n : Node} (hm : ∀ m ∈ n.walk, s.OffersNode P takes m) (st : Style) :
    P Unit (node s n st) (keysOf s takes keys n) := by
  induction n using Node.induction generalizing st with
  | step n ih =>
    rw [Node.walk_eq] at hm
    have hn : s.OffersNode P takes n := hm n (List.mem_cons_self ..)
    replace ih (m : Node) (hc : m ∈ n.children) (st : Style) : P Unit (Render.node s m st) (keysOf s takes keys m) :=
      ih m hc (fun k hk => hm k (List.mem_cons_of_mem n (List.mem_flatMap.2 ⟨m, hc, hk⟩))) st
    have all {l : List Node} (hl : ∀ m ∈ l, m ∈ n.children) (st : Style) :=
      nodes hP (fun m hm => ih m (hl m hm)) st
    cases n with
    | text t | hashTag t | inlineCode t | autoLinkMail t | autoLinkUrl t | lineBreak =>
      exact h.visit (hP.silentText _ _)
    | emoji e | htmlEntity name => exact h.visit (hP.silentText _ _)
    | strong l | emphasize l | delete l | insert l | underline l | superscript l | subscript l
    | abbreviation _ l | link _ l | linkReference _ l => exact h.visit (all (fun _ hm => hm) _)
    | htmlEntityUnicode code =>
      rw [Render.node]
      refine h.visit ?_
      split
      · exact hP.silentText _ _
      · exact hP.done ()
    | footnoteReference key autoExpand =>
      have hk : keysOf s takes keys (.footnoteReference key autoExpand) =
        keys ⟨.blocks, key, autoExpand⟩ := List.append_nil _
      rw [hk]
      exact h.visit (h.reference st key autoExpand)
    | metaReference key => exact h.visit (metaText hP st key)
    | detailsReference => exact h.visit (h.details st)
    | multimedia items l alone =>
      rw [keysOf, Sight.shown, apply_ite (List.flatMap keys)]
      exact h.visit (hn items rfl st (all (fun _ hm => hm) st))
    | multimediaReference label l alone =>
      rw [keysOf, Sight.shown, apply_ite (List.flatMap keys)]
      exact h.visit (hn _ rfl st (all (fun _ hm => hm) st))
    | inlineScript expression alone => exact h.visit (h.script st expression alone)
    | inlineHtml markup => exact h.visit (hP.comment markup)
    | paragraph l => exact block hP h (hP.padded (hP.flushed (all (fun _ hm => hm) st)) _ _)
    | header level l => exact block hP h (htmlLabel hP h st (headerAttributes_sublist _ _) l)
    | bulletList l =>
      rw [Render.node, parts_eq, bullets, List.map_map, keysOf, Sight.shown, Sight.shownAll_eq,
        List.flatMap_assoc]
      exact block hP h (hP.list st fun m hm => ih m hm st)
    | numberedList items =>
      rw [Render.node, numberedParts_eq, keysOf, Sight.shown, Sight.shownNumbered_eq,
        List.flatMap_assoc]
      exact block hP h (hP.numberedList st fun i hi => ih _ (Node.mem_children_numberedList hi) st)
    | taskList items =>
      rw [Render.node, taskParts_eq, checks, List.map_map, keysOf, Sight.shown, Sight.shownTasks_eq,
        List.flatMap_assoc]
      exact block hP h (hP.list st fun i hi => ih _ (Node.mem_children_taskList hi) st)
    | definitionList groups =>
      rw [Render.node, groupParts_eq, keysOf, Sight.shown, Sight.shownGroups_eq, List.flatMap_assoc]
      simp only [List.flatMap_append, List.flatMap_assoc]
      refine block hP h (hP.definitionList st fun g hg => ⟨fun m hm => ?_, fun m hm => ?_⟩)
      · exact ih m (Node.mem_children_terms hg hm) _
      · exact ih m (Node.mem_children_descriptions hg hm) _
    | table t =>
      rw [node_table, keysOf, Sight.shown_table, List.flatMap_assoc, Table.placed_flatMap]
      refine block hP h (hP.table (g := fun _ => keysOf s takes keys) fun m hm _ _ => ih m ?_ _)
      obtain ⟨row, hr, hm⟩ := List.mem_flatMap.1 hm
      obtain ⟨cell, hc, rfl⟩ := Row.mem_of_mem_placed hm
      exact Node.mem_cellContents hr hc
    | blockQuote l | insertBlocks l | deleteBlocks l =>
      exact block hP h (hP.panel (all (fun _ hm => hm) st) _ _)
    | codeBlock b => exact block hP h (h.code st b)
    | horizontalRule | sectionSeparator => exact block hP h hP.rule
    | aligned a l => exact block hP h (hP.stacked (all (fun _ hm => hm) _))
    | singleChild m =>
      have hm := ih m (List.mem_singleton_self m) st
      rw [Render.node, spanOrBlock]
      split
      · exact h.visit hm
      · exact block hP h hm
    | nestedBlock l =>
      rw [Render.node]
      split
      · exact h.visit (all (fun _ hm => hm) st)
      · exact block hP h (hP.flushed (all (fun _ hm => hm) st))
    | standalone m =>
      cases m with
      | emoji e => exact standalone hP h st (standaloneEmoji hP st e)
      | inlineScript expression alone => exact standalone hP h st (h.script st expression false)
      | _ => exact standalone hP h st (ih _ (List.mem_singleton_self _) st)
    | htmlBlock l => exact block hP h (htmlLabel hP h st (noAttributes_sublist _) l)
    | commentBlock _ | invisibleBreak => exact block hP h (hP.done ())

theorem all {l : List Node} (hm : ∀ m ∈ Node.walkAll l, s.OffersNode P takes m) (st : Style) :
    P Unit (Render.nodes s l st) (((s.sight takes).shownAll .blocks l).flatMap keys) := by
  exact nodes hP (fun n hn => node hP h fun m hk => hm m (Node.mem_walkAll_of_mem hn hk)) st

/-- Footnotes lose the bounds of their paragraphs, but no references. -/
theorem footnoteContent {l : List Node} (hm : ∀ m ∈ Node.walkAll l, s.OffersNode P takes m) (st : Style) :
    P Unit (footnoteContent s l st) (((s.sight takes).shownAll .blocks l).flatMap keys) := by
  induction l with
  | nil => exact hP.done ()
  | cons n r ih =>
    rw [Sight.shownAll, List.flatMap_append]
    have hr := ih fun m hk => hm m (List.mem_append_right _ hk)
    have hn (m : Node) (hk : m ∈ n.walk) : s.OffersNode P takes m := hm m (List.mem_append_left _ hk)
    cases n with
    | paragraph l => exact hP.andThen (all hP h (fun m hk => hn m (List.mem_cons_of_mem _ hk)) st) fun _ => hr
    | _ => exact hP.andThen (node hP h hn st) fun _ => hr

end Walked

namespace Traversed

variable {P : (α : Type) → Rendering α → List String → Prop} {s : Scope} {takes : MediaItem → Bool}
  {keys : ShownLink → List String} (hP : Compositional s.dialect (fun _ => []) P) (h : Traversed P s takes keys)
include hP h

omit hP in
theorem offersNode (n : Node) : s.OffersNode P takes n := fun items _ _ _ st ha => h.media st items ha

theorem all (l : List Node) (st : Style) :
    P Unit (Render.nodes s l st) (((s.sight takes).shownAll .blocks l).flatMap keys) :=
  Walked.all hP h.toWalked (fun m _ => h.offersNode m) st

theorem footnoteContent (l : List Node) (st : Style) :
    P Unit (footnoteContent s l st) (((s.sight takes).shownAll .blocks l).flatMap keys) :=
  Walked.footnoteContent hP h.toWalked (fun m _ => h.offersNode m) st

end Traversed

end XamlDoc
