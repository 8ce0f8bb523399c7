import XamlDoc.Proofs.Render.Agreement

/-!
# Nodes of other documents

Nodes are rendered in the scope of a document, but do not look at its nodes: in a document with other nodes and the
same footnotes, references, metadata and details they are rendered alike.
-/

namespace XamlDoc

def Html.Scope.withNodes (s : Scope) (k : List Node) : Scope := { s with document := { s.document with nodes := k } }

def Scope.withNodes (s : Scope) (k : List Node) : Scope :=
  { s with document := { s.document with nodes := k }, html := s.html.withNodes k }

namespace Html

variable (s : Scope) (k : List Node)

mutual

/-- A pass over a node does not look at the nodes of the document. -/
theorem node_withNodes (n : Node) : node (s.withNodes k) n = node s n := by
  cases n with
  | strong c | emphasize c | delete c | insert c | underline c | superscript c | subscript c | link _ c
  | abbreviation _ c | paragraph c | header _ c | blockQuote c | insertBlocks c | deleteBlocks c | aligned _ c
  | nestedBlock c | htmlBlock c =>
    rw [node, node, nodes_withNodes c]
  | linkReference _ c | multimediaReference _ c _ =>
    rw [node, node, nodes_withNodes c]
    rfl
  | multimedia items c _ =>
    cases items with
    | nil => rw [node, node, nodes_withNodes c]
    | cons _ _ => rfl
  | bulletList c => rw [node, node, each_withNodes c]
  | numberedList items => rw [node, node, numbered_withNodes items]
  | taskList items => rw [node, node, tasks_withNodes items]
  | definitionList g => rw [node, node, groups_withNodes g]
  | table t =>
    obtain ⟨columns, alignments, headers, bodyRows, caption, id⟩ := t
    rw [node, node, rows_withNodes headers, rows_withNodes bodyRows]
  | singleChild c | standalone c => rw [node, node, node_withNodes c]
  | _ => rfl

theorem nodes_withNodes (l : List Node) : nodes (s.withNodes k) l = nodes s l := by
  cases l with
  | nil => rfl
  | cons n r => rw [nodes, nodes, node_withNodes n, nodes_withNodes r]

theorem each_withNodes (l : List Node) : each (s.withNodes k) l = each s l := by
  cases l with
  | nil => rfl
  | cons n r => rw [each, each, node_withNodes n, each_withNodes r]

theorem numbered_withNodes (l : List (NumberedItem Node)) : numbered (s.withNodes k) l = numbered s l := by
  rcases l with _ | ⟨⟨number, n⟩, r⟩
  · rfl
  · rw [numbered, numbered, node_withNodes n, numbered_withNodes r]

theorem tasks_withNodes (l : List (TaskItem Node)) : tasks (s.withNodes k) l = tasks s l := by
  rcases l with _ | ⟨⟨checked, n⟩, r⟩
  · rfl
  · rw [tasks, tasks, node_withNodes n, tasks_withNodes r]

theorem groups_withNodes (l : List (DefinitionGroup Node)) : groups (s.withNodes k) l = groups s l := by
  rcases l with _ | ⟨⟨terms, descriptions⟩, r⟩
  · rfl
  · rw [groups, groups, each_withNodes terms, each_withNodes descriptions, groups_withNodes r]

theorem rows_withNodes (l : List (Row Node)) : rows (s.withNodes k) l = rows s l := by
  rcases l with _ | ⟨cells, r⟩
  · rfl
  · rw [rows, rows, row_withNodes cells, rows_withNodes r]

theorem row_withNodes (l : Row Node) : row (s.withNodes k) l = row s l := by
  rcases l with _ | ⟨_ | ⟨n, alignment⟩, r⟩
  · rfl
  · rw [row, row, row_withNodes r]
  · rw [row, row, node_withNodes n, row_withNodes r]

end

end Html

namespace Render

variable (s : Scope) (k : List Node)

theorem media_withNodes (st : Style) (alternative : Rendering Unit) (items : List MediaItem) :
    media (s.withNodes k) st alternative items = media s st alternative items := by
  induction items with
  | nil => rfl
  | cons item r ih =>
    rw [media, media, ih]
    rfl

theorem html_withNodes (st : Style) (extra : List Markup.Attribute) (l : List Node) :
    html (s.withNodes k) st extra l = html s st extra l := by
  rw [html, html, show (s.withNodes k).html = s.html.withNodes k from rfl, Html.nodes_withNodes]
  rfl

mutual

/-- The rendering of a node does not look at the nodes of the document. -/
theorem node_withNodes (n : Node) (st : Style) : node (s.withNodes k) n st = node s n st := by
  cases n with
  | strong c | emphasize c | delete c | insert c | underline c | superscript c | subscript c | link _ c
  | abbreviation _ c => rw [node, node, nodes_withNodes c]
  | linkReference _ c =>
    rw [node, node, nodes_withNodes c]
    rfl
  | multimedia _ c _ => rw [node, node, nodes_withNodes c, media_withNodes]
  | multimediaReference _ c _ =>
    rw [node, node, nodes_withNodes c, media_withNodes]
    rfl
  | paragraph c | blockQuote c | insertBlocks c | deleteBlocks c | aligned _ c | nestedBlock c =>
    rw [node, node, nodes_withNodes c]
    rfl
  | header _ c | htmlBlock c =>
    rw [node, node, html_withNodes]
    rfl
  | bulletList c =>
    rw [node, node, parts_withNodes c]
    rfl
  | numberedList items =>
    rw [node, node, numberedParts_withNodes items]
    rfl
  | taskList items =>
    rw [node, node, taskParts_withNodes items]
    rfl
  | definitionList g =>
    rw [node, node, groupParts_withNodes g]
    rfl
  | table t =>
    obtain ⟨columns, alignments, headers, rows, caption, id⟩ := t
    rw [node, node, rowParts_withNodes headers, rowParts_withNodes rows]
    rfl
  | singleChild c =>
    rw [node, node, node_withNodes c]
    rfl
  | standalone c =>
    have hc := node_withNodes c st
    cases c with
    | emoji e | inlineScript _ _ => rfl
    | _ => exact congrArg (standalone s st) hc
  | _ => rfl

theorem nodes_withNodes (l : List Node) (st : Style) : nodes (s.withNodes k) l st = nodes s l st := by
  cases l with
  | nil => rfl
  | cons n r => rw [nodes, nodes, node_withNodes n, nodes_withNodes r]

theorem parts_withNodes (l : List Node) : parts (s.withNodes k) l = parts s l := by
  cases l with
  | nil => rfl
  | cons n r => rw [parts, parts, funext (node_withNodes n), parts_withNodes r]

theorem numberedParts_withNodes (l : List (NumberedItem Node)) :
    numberedParts (s.withNodes k) l = numberedParts s l := by
  rcases l with _ | ⟨⟨number, n⟩, r⟩
  · rfl
  · rw [numberedParts, numberedParts, funext (node_withNodes n), numberedParts_withNodes r]

theorem taskParts_withNodes (l : List (TaskItem Node)) : taskParts (s.withNodes k) l = taskParts s l := by
  rcases l with _ | ⟨⟨checked, n⟩, r⟩
  · rfl
  · rw [taskParts, taskParts, funext (node_withNodes n), taskParts_withNodes r]

theorem groupParts_withNodes (l : List (DefinitionGroup Node)) : groupParts (s.withNodes k) l = groupParts s l := by
  rcases l with _ | ⟨⟨terms, descriptions⟩, r⟩
  · rfl
  · rw [groupParts, groupParts, parts_withNodes terms, parts_withNodes descriptions, groupParts_withNodes r]

theorem rowParts_withNodes (l : List (Row Node)) : rowParts (s.withNodes k) l = rowParts s l := by
  rcases l with _ | ⟨cells, r⟩
  · rfl
  · rw [rowParts, rowParts, cellParts_withNodes cells, rowParts_withNodes r]

theorem cellParts_withNodes (l : Row Node) : cellParts (s.withNodes k) l = cellParts s l := by
  rcases l with _ | ⟨_ | ⟨n, alignment⟩, r⟩
  · rfl
  · rw [cellParts, cellParts, cellParts_withNodes r]
  · rw [cellParts, cellParts, funext (node_withNodes n), cellParts_withNodes r]

end

end Render

end XamlDoc
