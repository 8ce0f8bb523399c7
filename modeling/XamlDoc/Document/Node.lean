import XamlDoc.Document.Table

/-!
# Document nodes

Spans and blocks of a document as one tree. Containers own their children. List items,
definition groups and table cells are records over the type of nodes.
-/

namespace XamlDoc

structure Emoji where
  shortName : String
  unicode : String
  level : UInt8
  deriving DecidableEq, Repr

def Emoji.named (shortName unicode : String) : Emoji := ⟨shortName, unicode, 1⟩

structure MediaItem where
  url : String
  title : Option String
  width : Option UInt32
  height : Option UInt32
  contentType : Option String
  deriving DecidableEq, Repr

namespace MediaItem

def ofUrl (url : String) : MediaItem := ⟨url, none, none, none, none⟩

def withContentType (m : MediaItem) (contentType : String) : MediaItem :=
  { m with contentType := some contentType }

def withSize (m : MediaItem) (width height : UInt32) : MediaItem :=
  { m with width := some width, height := some height }

end MediaItem

structure NumberedItem (ν : Type) where
  /-- Restarts the numbering. -/
  number : Option UInt32
  child : ν

structure TaskItem (ν : Type) where
  checked : Bool
  child : ν

structure DefinitionGroup (ν : Type) where
  terms : List ν
  descriptions : List ν

structure CodeBlock where
  rows : List String
  language : Option String
  indent : UInt64
  deriving DecidableEq, Repr

def CodeBlock.ofRows (language : Option String) (rows : List String) : CodeBlock :=
  ⟨rows, language, 0⟩

inductive Node where
  -- spans
  | text (content : String)
  | strong (children : List Node)
  | emphasize (children : List Node)
  | delete (children : List Node)
  | insert (children : List Node)
  | underline (children : List Node)
  | superscript (children : List Node)
  | subscript (children : List Node)
  | inlineCode (code : String)
  | link (url : String) (children : List Node)
  | linkReference (label : String) (children : List Node)
  | autoLinkMail (address : String)
  | autoLinkUrl (url : String)
  | hashTag (tag : String)
  | emoji (emoji : Emoji)
  | htmlEntity (name : String)
  | htmlEntityUnicode (code : UInt32)
  | lineBreak
  | footnoteReference (key : String) (autoExpand : Bool)
  | metaReference (key : String)
  | detailsReference
  | multimedia (items : List MediaItem) (children : List Node) (alone : Bool)
  | multimediaReference (label : String) (children : List Node) (alone : Bool)
  | inlineScript (expression : String) (alone : Bool)
  | inlineHtml (markup : String)
  | abbreviation (title : String) (children : List Node)
  -- blocks
  | paragraph (children : List Node)
  | header (level : UInt8) (children : List Node)
  | bulletList (items : List Node)
  | numberedList (items : List (NumberedItem Node))
  | taskList (items : List (TaskItem Node))
  | definitionList (groups : List (DefinitionGroup Node))
  | table (table : Table Node)
  | blockQuote (children : List Node)
  | insertBlocks (children : List Node)
  | deleteBlocks (children : List Node)
  | codeBlock (block : CodeBlock)
  | horizontalRule
  | sectionSeparator
  | aligned (alignment : BlockAlignment) (children : List Node)
  | singleChild (child : Node)
  | nestedBlock (children : List Node)
  | standalone (child : Node)
  | htmlBlock (children : List Node)
  | commentBlock (lines : List String)
  | invisibleBreak

instance : Inhabited Node := ⟨.invisibleBreak⟩

namespace Node

def cellContents (rows : List (Row Node)) : List Node :=
  rows.flatMap fun row => row.filterMap fun cell? => cell?.map Cell.content

/-- Direct children in document order; items, definitions and cells stand in one sequence. -/
def children : Node → List Node
  | strong c | emphasize c | delete c | insert c | underline c | superscript c | subscript c
  | paragraph c | blockQuote c | insertBlocks c | deleteBlocks c | nestedBlock c | htmlBlock c
  | link _ c | linkReference _ c | multimedia _ c _ | multimediaReference _ c _
  | abbreviation _ c | header _ c | aligned _ c | bulletList c => c
  | singleChild c | standalone c => [c]
  | numberedList items => items.map NumberedItem.child
  | taskList items => items.map TaskItem.child
  | definitionList groups => groups.flatMap fun g => g.terms ++ g.descriptions
  | table t => cellContents t.allRows
  | _ => []

mutual

/-- The node and all nodes below it, each before its children. -/
def walk : Node → List Node
  | strong c => strong c :: walkAll c
  | emphasize c => emphasize c :: walkAll c
  | delete c => delete c :: walkAll c
  | insert c => insert c :: walkAll c
  | underline c => underline c :: walkAll c
  | superscript c => superscript c :: walkAll c
  | subscript c => subscript c :: walkAll c
  | link u c => link u c :: walkAll c
  | linkReference l c => linkReference l c :: walkAll c
  | multimedia i c a => multimedia i c a :: walkAll c
  | multimediaReference l c a => multimediaReference l c a :: walkAll c
  | abbreviation t c => abbreviation t c :: walkAll c
  | paragraph c => paragraph c :: walkAll c
  | header l c => header l c :: walkAll c
  | bulletList c => bulletList c :: walkAll c
  | numberedList items => numberedList items :: walkNumbered items
  | taskList items => taskList items :: walkTasks items
  | definitionList groups => definitionList groups :: walkGroups groups
  | table t => table t :: match t with
    | ⟨_, _, headers, rows, _, _⟩ => walkRows headers ++ walkRows rows
  | blockQuote c => blockQuote c :: walkAll c
  | insertBlocks c => insertBlocks c :: walkAll c
  | deleteBlocks c => deleteBlocks c :: walkAll c
  | aligned a c => aligned a c :: walkAll c
  | singleChild c => singleChild c :: walk c
  | nestedBlock c => nestedBlock c :: walkAll c
  | standalone c => standalone c :: walk c
  | htmlBlock c => htmlBlock c :: walkAll c
  | leaf => [leaf]

def walkAll : List Node → List Node
  | [] => []
  | n :: r => walk n ++ walkAll r

def walkNumbered : List (NumberedItem Node) → List Node
  | [] => []
  | ⟨_, c⟩ :: r => walk c ++ walkNumbered r

def walkTasks : List (TaskItem Node) → List Node
  | [] => []
  | ⟨_, c⟩ :: r => walk c ++ walkTasks r

def walkGroups : List (DefinitionGroup Node) → List Node
  | [] => []
  | ⟨terms, descriptions⟩ :: r => walkAll terms ++ walkAll descriptions ++ walkGroups r

def walkRows : List (Row Node) → List Node
  | [] => []
  | row :: r => walkRow row ++ walkRows r

def walkRow : Row Node → List Node
  | [] => []
  | none :: r => walkRow r
  | some ⟨c, _⟩ :: r => walk c ++ walkRow r

end

mutual

/-- The node flows inline inside a paragraph. A wrapper is inline if its child is, and a nested block
if it has children and all of them are. -/
def isInline : Node → Bool
  | text _ | strong _ | emphasize _ | delete _ | insert _ | underline _ | superscript _
  | subscript _ | inlineCode _ | link _ _ | linkReference _ _ | autoLinkMail _ | autoLinkUrl _
  | hashTag _ | emoji _ | htmlEntity _ | htmlEntityUnicode _ | lineBreak
  | footnoteReference _ _ | metaReference _ | detailsReference | multimedia _ _ _
  | multimediaReference _ _ _ | inlineScript _ _ | inlineHtml _ | abbreviation _ _ => true
  | singleChild c => isInline c
  | nestedBlock [] => false
  | nestedBlock (c :: r) => isInline c && allInline r
  | _ => false

def allInline : List Node → Bool
  | [] => true
  | n :: r => isInline n && allInline r

end

def isOutsideParagraph : Node → Bool
  | standalone _ => true
  | singleChild c => isOutsideParagraph c
  | _ => false

end Node

/-! ### Vertical margins -/

structure Margins where
  top : Bool
  bottom : Bool
  deriving DecidableEq, Repr

namespace Margins

def none : Margins := ⟨false, false⟩

def both : Margins := ⟨true, true⟩

end Margins

namespace Node

def isInParagraph (n : Node) : Bool := isInline n && !isOutsideParagraph n

mutual

/-- Spans in a paragraph have no margins. A nested block has the top margin of its first child and
the bottom margin of its last, a wrapper those of its child, and every other block both. -/
def margins : Node → Margins
  | nestedBlock c =>
    if isInParagraph (nestedBlock c) then .none else ⟨(firstMargins c).top, (lastMargins c).bottom⟩
  | singleChild c => if isInParagraph (singleChild c) then .none else margins c
  | n => if isInParagraph n then .none else .both

def firstMargins : List Node → Margins
  | [] => .none
  | n :: _ => margins n

def lastMargins : List Node → Margins
  | [] => .none
  | [n] => margins n
  | _ :: n :: r => lastMargins (n :: r)

end

end Node

end XamlDoc
