import XamlDoc.Markup.Tree
import XamlDoc.Proofs.Document.Contents
import XamlDoc.Render.Node

/-!
# Texts of a document

The texts of a document in order, each with what its ancestors say about its look. Headers and blocks of
HTML are left out, and so is what has no place in a table. A table cell is a new beginning: only the row
that it is in has a say in it.
-/

namespace XamlDoc

open Markup (Attribute Content Element)

/-- What an ancestor says about the look of a text. -/
inductive Mark where
  | bold
  | italic
  | strikeThrough
  | underline
  | superscript
  | subscript
  | code
  | link (target : String)
  deriving DecidableEq, Repr

def Mark.target? : Mark → Option String
  | .link target => some target
  | _ => none

/-- A text that is not empty, and the marks on it, the innermost first. -/
structure Leaf where
  text : String
  marks : List Mark
  deriving DecidableEq, Repr

/-! ### Leaves of nodes -/

namespace Document

variable (d : Document)

def leaf (t : String) (marks : List Mark) : List Leaf := if t = "" then [] else [⟨t, marks⟩]

/-- The mark of a link to a declared target. -/
def linkMark? (label : String) : Option Mark := (d.references.get? label).map fun target => .link target.url

def metaLeaf (key : String) (marks : List Mark) : List Leaf :=
  match d.metadata.joined? key with
  | some value => leaf value marks
  | none => []

mutual

/-- The leaves at or below a node that has `marks` from its ancestors. -/
def leaves (marks : List Mark) : Node → List Leaf
  | .text t | .hashTag t => leaf t marks
  | .lineBreak => leaf "\n" marks
  | .emoji e => leaf e.unicode marks
  | .htmlEntity name => leaf (Html.entityText name) marks
  | .htmlEntityUnicode code =>
    match Html.charOfCode? code with
    | some c => leaf c.toString marks
    | none => []
  | .inlineCode t | .inlineScript t _ => leaf t (.code :: marks)
  | .autoLinkMail address => leaf address (.link ("mailto:" ++ address) :: marks)
  | .autoLinkUrl url => leaf url (.link url :: marks)
  | .metaReference key => d.metaLeaf key marks
  | .detailsReference => d.metaLeaf "Details" marks
  | .strong l => leavesAll (.bold :: marks) l
  | .emphasize l => leavesAll (.italic :: marks) l
  | .delete l => leavesAll (.strikeThrough :: marks) l
  | .insert l | .underline l => leavesAll (.underline :: marks) l
  | .superscript l => leavesAll (.superscript :: marks) l
  | .subscript l => leavesAll (.subscript :: marks) l
  | .link url l => leavesAll (.link url :: marks) l
  | .linkReference label l => leavesAll ((d.linkMark? label).toList ++ marks) l
  | .multimedia _ l _ | .multimediaReference _ l _ | .abbreviation _ l | .paragraph l | .bulletList l
  | .blockQuote l | .insertBlocks l | .deleteBlocks l | .aligned _ l | .nestedBlock l => leavesAll marks l
  | .numberedList items => leavesNumbered marks items
  | .taskList items => leavesTasks marks items
  | .definitionList groups => leavesGroups marks groups
  | .table ⟨columns, _, headers, rows, _, _⟩ =>
    leavesRows [.bold] columns.toNat headers ++ leavesRows [] columns.toNat rows
  | .standalone (.emoji e) => leaf (Render.emojiName e) marks
  | .singleChild n | .standalone n => leaves marks n
  | _ => []

def leavesAll (marks : List Mark) : List Node → List Leaf
  | [] => []
  | n :: r => leaves marks n ++ leavesAll marks r

def leavesNumbered (marks : List Mark) : List (NumberedItem Node) → List Leaf
  | [] => []
  | ⟨_, n⟩ :: r => leaves marks n ++ leavesNumbered marks r

def leavesTasks (marks : List Mark) : List (TaskItem Node) → List Leaf
  | [] => []
  | ⟨_, n⟩ :: r => leaves marks n ++ leavesTasks marks r

def leavesGroups (marks : List Mark) : List (DefinitionGroup Node) → List Leaf
  | [] => []
  | ⟨terms, descriptions⟩ :: r =>
    leavesAll (.bold :: marks) terms ++ leavesAll marks descriptions ++ leavesGroups marks r

def leavesRows (marks : List Mark) (columns : Nat) : List (Row Node) → List Leaf
  | [] => []
  | row :: r => leavesRow marks row columns ++ leavesRows marks columns r

/-- The leaves in the entries of a row, up to a number of entries. -/
def leavesRow (marks : List Mark) : Row Node → Nat → List Leaf
  | [], _ | _, 0 => []
  | none :: r, room + 1 => leavesRow marks r room
  | some ⟨n, _⟩ :: r, room + 1 => leaves marks n ++ leavesRow marks r room

end

variable (marks : List Mark)

/-- The leaves of the whole document. -/
def allLeaves : List Leaf := d.leavesAll [] d.nodes

/-! ### Children -/

theorem leavesAll_eq (l : List Node) : d.leavesAll marks l = l.flatMap (d.leaves marks) := by
  induction l with
  | nil => rfl
  | cons n r ih => rw [leavesAll, ih, List.flatMap_cons]

theorem leavesNumbered_eq (items : List (NumberedItem Node)) :
    d.leavesNumbered marks items = items.flatMap fun i => d.leaves marks i.child := by
  induction items with
  | nil => rfl
  | cons i r ih => rw [leavesNumbered, ih, List.flatMap_cons]

theorem leavesTasks_eq (items : List (TaskItem Node)) :
    d.leavesTasks marks items = items.flatMap fun i => d.leaves marks i.child := by
  induction items with
  | nil => rfl
  | cons i r ih => rw [leavesTasks, ih, List.flatMap_cons]

theorem leavesGroups_eq (groups : List (DefinitionGroup Node)) :
    d.leavesGroups marks groups = groups.flatMap fun g =>
      g.terms.flatMap (d.leaves (.bold :: marks)) ++ g.descriptions.flatMap (d.leaves marks) := by
  induction groups with
  | nil => rfl
  | cons g r ih => rw [leavesGroups, ih, leavesAll_eq, leavesAll_eq, List.flatMap_cons]

/-- The first entries of a row are those that have a place on as many columns. -/
theorem leavesRow_eq (row : Row Node) (columns : Nat) :
    d.leavesRow marks row columns = (row.placed columns).flatMap (d.leaves marks) := by
  -- which column is the first makes no difference
  suffices h : ∀ column, d.leavesRow marks row columns =
      ((row.placeFrom column columns).flatMap Placement.contents).flatMap (d.leaves marks) from h 0
  induction columns generalizing row with
  | zero =>
    intro column
    cases row <;> rfl
  | succ room ih =>
    intro column
    match row with
    | [] => exact ih [] (column + 1)
    | none :: r => exact ih r (column + 1)
    | some cell :: r =>
      rw [leavesRow, ih r (column + 1)]
      rfl

theorem leavesRows_eq (columns : Nat) (rows : List (Row Node)) :
    d.leavesRows marks columns rows =
      rows.flatMap fun row => (row.placed columns).flatMap (d.leaves marks) := by
  induction rows with
  | nil => rfl
  | cons row r ih => rw [leavesRows, ih, leavesRow_eq, List.flatMap_cons]

theorem leaves_table (t : Table Node) :
    d.leaves marks (.table t) =
      (t.headers.flatMap fun row => (Row.placed t.columns.toNat row).flatMap (d.leaves [.bold])) ++
        t.rows.flatMap fun row => (Row.placed t.columns.toNat row).flatMap (d.leaves []) := by
  obtain ⟨columns, alignments, headers, rows, caption, id⟩ := t
  rw [leaves, leavesRows_eq, leavesRows_eq]

end Document

/-! ### Spans of leaves -/

namespace Leaf

variable (l : Leaf)

def has (m : Mark) : Bool := l.marks.contains m

/-- The target of the innermost link. -/
def target? : Option String := l.marks.findSome? Mark.target?

/-- The text as it is shown; raised if it is to be both raised and lowered. -/
def shown : String :=
  if l.has .superscript then Text.superscript l.text
  else if l.has .subscript then Text.subscript l.text
  else l.text

/-- An attribute whose value lists the names that apply; absent if none does. -/
def listed (name : String) (names : List (String × Bool)) : List Attribute :=
  match (names.filter Prod.snd).map Prod.fst with
  | [] => []
  | first :: r => [(name, Text.join ", " (first :: r))]

def tap (p : Profile) (target : String) : Content :=
  .element "Span.GestureRecognizers" []
    [.element "TapGestureRecognizer" [("Command", p.hyperlinkCommand), ("CommandParameter", target)] []]

/-- The span that shows a leaf. -/
def span (p : Profile) : Element where
  name := "Span"
  attributes :=
    [("Text", l.shown)]
      ++ listed "FontAttributes" [("Italic", l.has .italic), ("Bold", l.has .bold)]
      ++ listed "TextDecorations"
        [("Strikethrough", l.has .strikeThrough), ("Underline", l.has .underline)]
      ++ (if l.has .code then [("FontFamily", p.codeFontFamily)] else [])
      ++ (if l.target?.isSome then [("TextColor", p.hyperlinkColor)] else [])
  children := (l.target?.map (tap p)).toList

end Leaf

end XamlDoc
