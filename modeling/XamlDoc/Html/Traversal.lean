import XamlDoc.Document.Basic
import XamlDoc.Extension.Script
import XamlDoc.Footnote.Nested
import XamlDoc.Html.Basic
import XamlDoc.Html.PlainText
import XamlDoc.Render.Traversal

/-!
# Nodes as HTML

Headers and HTML blocks carry their content as HTML. Footnotes are numbered as in the text around
them. A reference that expands in place is replaced by the content of its footnote, unless that
footnote is being expanded already.
-/

namespace XamlDoc.Html

abbrev Pass := StateT Traversal (Except Halt)

abbrev Part := Pass (List Fragment)

structure Scope where
  evaluator? : Option Evaluator
  profile : Profile
  document : Document
  /-- The content of a declared footnote that is not being expanded. -/
  inPlace : String → Option (Part)
  nested : Document → Part

/-- Go on unless the token has fired. -/
def visit {α : Type} (m : Pass α) : Pass α := do
  if (← get).stops then throw .cancelled
  modify Traversal.tick
  m

def cancelIf (cancels : Bool) : Pass Unit := modify fun t => t.cancelIf cancels

def image (item : MediaItem) (alt : String) : Fragment :=
  .void .img <|
    [(.src, item.url), (.alt, alt)]
      ++ (item.title.map fun t => (AttributeName.title, t)).toList
      ++ (item.width.map fun w => (AttributeName.width, toString w.toNat)).toList
      ++ (item.height.map fun h => (AttributeName.height, toString h.toNat)).toList

/-- A reference to a footnote; to an undeclared one it is nothing. -/
def footnoteReference (s : Scope) (key : String) (autoExpand : Bool) : Part :=
  match s.document.footnotes.get? key with
  | none => pure []
  | some _ =>
    match if autoExpand then s.inPlace key else none with
    | some content => content
    | none => do
      let number ← modifyGet fun t => t.reference key
      pure [footnoteNumber number]

def metaText (s : Scope) (key : String) : List Fragment :=
  ((s.document.metadata.joined? key).map Fragment.text).toList

def scriptValue (s : Scope) : ScriptValue → Part
  | .document d => s.nested d
  | v =>
    match v.text? with
    | some t => pure [.text t]
    | none => pure ((v.image? s.profile).map fun i =>
        image ⟨i.url, none, i.width, i.height, none⟩ "").toList

def script (s : Scope) (expression : String) : Part :=
  match s.evaluator? with
  | none => pure [codeText expression]
  | some evaluate => do
    let e := evaluate expression
    cancelIf e.cancels
    match e.result with
    | .ok v => scriptValue s v
    | .error e => pure [errorText e.unnest.lines]

def alignmentStyle : BlockAlignment → String
  | .left | .margin => "text-align:left"
  | .center => "text-align:center"
  | .right => "text-align:right"

/-! ### Elements around parts -/

def wrapped (tag : Tag) (attributes : Attributes) (content : Part) : Part := do
  pure [.element tag attributes (← content)]

def inOrder : List Part → Part
  | [] => pure []
  | m :: r => do
    let first ← m
    pure (first ++ (← inOrder r))

def numberedItem (item : NumberedItem Part) : Part :=
  wrapped .li ((item.number.map fun k => (AttributeName.value, toString k.toNat)).toList) item.child

def taskItem (item : TaskItem Part) : Part :=
  wrapped .li [] do pure (.text (if item.checked then "☑ " else "☐ ") :: (← item.child))

def definitionGroup (g : DefinitionGroup Part) : Part := do
  let terms ← inOrder (g.terms.map (wrapped .dt []))
  pure (terms ++ (← inOrder (g.descriptions.map (wrapped .dd []))))

def placedCell (tag : Tag) (p : Placement Part) : Part :=
  wrapped tag (if p.span > 1 then [(.colspan, toString p.span)] else [])
    ((p.cell?.map Cell.content).getD (pure []))

/-- A row of a table, which is placed as a whole before its first cell is gone through. -/
def tableRow [Memory] (columns : Nat) (tag : Tag) (row : Row Part) : Part :=
  match row.columnSpans? columns with
  | some placements => wrapped .tr [] (inOrder (placements.map (placedCell tag)))
  | none => throw .tooDeep

def table [Memory] (t : Table Part) : Part :=
  wrapped .table ((t.id.map fun i => (AttributeName.id, i)).toList) do
    let headers ← inOrder (t.headers.map (tableRow t.columns.toNat .th))
    let rows ← inOrder (t.rows.map (tableRow t.columns.toNat .td))
    pure ((t.caption.map fun c => wrap .caption [.text c]).toList ++ headers ++ rows)

/-! ### Nodes -/

mutual

def node [Memory] (s : Scope) : Node → Part
  | .text t | .hashTag t => visit (pure [.text t])
  | .strong c => visit (wrapped .strong [] (nodes s c))
  | .emphasize c => visit (wrapped .em [] (nodes s c))
  | .delete c => visit (wrapped .del [] (nodes s c))
  | .insert c => visit (wrapped .ins [] (nodes s c))
  | .underline c => visit (wrapped .u [] (nodes s c))
  | .superscript c => visit (wrapped .sup [] (nodes s c))
  | .subscript c => visit (wrapped .sub [] (nodes s c))
  | .inlineCode code => visit (pure [codeText code])
  | .link url c => visit (wrapped .a [(.href, url)] (nodes s c))
  | .linkReference label c =>
    visit (match s.document.references.get? label with
      | some target => wrapped .a [(.href, target.url)] (nodes s c)
      | none => nodes s c)
  | .autoLinkMail address => visit (pure [link ("mailto:" ++ address) [.text address]])
  | .autoLinkUrl url => visit (pure [link url [.text url]])
  | .emoji e => visit (pure [.text e.unicode])
  | .htmlEntity name => visit (pure [.text (entityText name)])
  | .htmlEntityUnicode code =>
    visit (pure ((charOfCode? code).map fun c => Fragment.text c.toString).toList)
  | .lineBreak => visit (pure [.void .br []])
  | .footnoteReference key autoExpand => visit (footnoteReference s key autoExpand)
  | .metaReference key => visit (pure (metaText s key))
  | .detailsReference => visit (pure (metaText s "Details"))
  | .multimedia [] c _ => visit (nodes s c)
  | .multimedia (item :: _) c _ => visit (pure [image item (Node.plainText c)])
  | .multimediaReference label c _ =>
    visit (match s.document.references.get? label with
      | some item => pure [image item (Node.plainText c)]
      | none => nodes s c)
  | .inlineScript expression _ => visit (script s expression)
  | .inlineHtml markup => visit (pure [.verbatim markup])
  | .abbreviation title c => visit (wrapped .abbr [(.title, title)] (nodes s c))
  | .paragraph c => visit (wrapped .p [] (nodes s c))
  | .header level c => visit (wrapped (.heading level.toNat) [] (nodes s c))
  | .bulletList items => visit (wrapped .ul [] (inOrder ((each s items).map (wrapped .li []))))
  | .numberedList items => visit (wrapped .ol [] (inOrder ((numbered s items).map numberedItem)))
  | .taskList items => visit (wrapped .ul [] (inOrder ((tasks s items).map taskItem)))
  | .definitionList g => visit (wrapped .dl [] (inOrder ((groups s g).map definitionGroup)))
  | .table ⟨columns, alignments, headers, bodyRows, caption, id⟩ =>
    visit (table ⟨columns, alignments, rows s headers, rows s bodyRows, caption, id⟩)
  | .blockQuote c => visit (wrapped .blockquote [] (nodes s c))
  | .insertBlocks c => visit (wrapped .ins [] (nodes s c))
  | .deleteBlocks c => visit (wrapped .del [] (nodes s c))
  | .codeBlock b => visit (pure [wrap .pre [codeText (Text.join "\n" b.rows)]])
  | .horizontalRule | .sectionSeparator => visit (pure [.void .hr []])
  | .aligned a c => visit (wrapped .div [(.style, alignmentStyle a)] (nodes s c))
  | .singleChild c | .standalone c => visit (node s c)
  | .nestedBlock c | .htmlBlock c => visit (nodes s c)
  | .commentBlock lines => visit (pure [.comment (Text.join " " lines)])
  | .invisibleBreak => visit (pure [])

def nodes [Memory] (s : Scope) : List Node → Part
  | [] => pure []
  | n :: r => do
    let first ← node s n
    pure (first ++ (← nodes s r))

def each [Memory] (s : Scope) : List Node → List Part
  | [] => []
  | n :: r => node s n :: each s r

def numbered [Memory] (s : Scope) : List (NumberedItem Node) → List (NumberedItem Part)
  | [] => []
  | ⟨number, n⟩ :: r => ⟨number, node s n⟩ :: numbered s r

def tasks [Memory] (s : Scope) : List (TaskItem Node) → List (TaskItem Part)
  | [] => []
  | ⟨checked, n⟩ :: r => ⟨checked, node s n⟩ :: tasks s r

def groups [Memory] (s : Scope) : List (DefinitionGroup Node) → List (DefinitionGroup Part)
  | [] => []
  | ⟨terms, descriptions⟩ :: r => ⟨each s terms, each s descriptions⟩ :: groups s r

def rows [Memory] (s : Scope) : List (Row Node) → List (Row Part)
  | [] => []
  | cells :: r => row s cells :: rows s r

def row [Memory] (s : Scope) : Row Node → Row Part
  | [] => []
  | none :: r => none :: row s r
  | some ⟨n, alignment⟩ :: r => some ⟨node s n, alignment⟩ :: row s r

end

/-! ### Scopes -/

/-- The content of a footnote, expanded in place. Its paragraphs lose their bounds. -/
def footnoteContent [Memory] (s : Scope) : List Node → Part
  | [] => pure []
  | .paragraph c :: r => do
    let first ← nodes s c
    pure (first ++ (← footnoteContent s r))
  | n :: r => do
    let first ← node s n
    pure (first ++ (← footnoteContent s r))

/-- The scope in which the footnotes `expanding` are being expanded and at most `levels` more can be.
Every level takes a declared footnote, so as many levels as footnotes are no restriction. -/
def Scope.expanding [Memory] (s : Scope) : Nat → List String → Scope
  | 0, _ => { s with inPlace := fun _ => none }
  | levels + 1, expanding =>
    { s with
      inPlace := fun key =>
        if expanding.contains key then none
        else (s.document.footnotes.get? key).map fun f =>
          footnoteContent (s.expanding levels (key :: expanding)) f.content }

def Scope.ofDocument [Memory] (evaluator? : Option Evaluator) (profile : Profile)
    (nested : Document → Part) (d : Document) : Scope :=
  Scope.expanding ⟨evaluator?, profile, d, fun _ => none, nested⟩ d.footnotes.size []

def ownNumbers {α : Type} (m : Pass α) : Pass α := do
  let outer := (← get).numbering
  modify fun t => { t with numbering := ∅ }
  let a ← m
  modify fun t => { t with numbering := outer }
  pure a

/-- A document that a script returned, with documents of scripts nested at most `limit` deep. -/
def nestedDocument [Memory] (evaluator? : Option Evaluator) (profile : Profile) :
    Nat → Document → Part
  | 0, _ => throw .tooDeep
  | limit + 1, d =>
    ownNumbers <|
      nodes (Scope.ofDocument evaluator? profile (nestedDocument evaluator? profile limit) d) d.nodes

end XamlDoc.Html
