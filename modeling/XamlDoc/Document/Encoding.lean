import XamlDoc.Data.Basic
import XamlDoc.Document.Basic

/-!
# Documents as data

The form in which documents are stored. A node is a record of its `type` and its `value`; a node
without content has no `value`. Every other field is written, absent options as `null`.
-/

namespace XamlDoc

open Data (null boolean integer string list record)

def Data.ofOption {α : Type} (encode : α → Data) : Option α → Data
  | none => null
  | some a => encode a

def Data.natural (n : Nat) : Data := integer n

def Alignment.name : Alignment → String
  | .left => "left"
  | .center => "center"
  | .right => "right"

def BlockAlignment.name : BlockAlignment → String
  | .left => "left"
  | .center => "center"
  | .right => "right"
  | .margin => "margin"

def Emoji.encode (e : Emoji) : Data :=
  record [("short_name", string e.shortName), ("unicode", string e.unicode),
    ("level", .natural e.level.toNat)]

def MediaItem.encode (m : MediaItem) : Data :=
  record [("url", string m.url), ("title", .ofOption string m.title),
    ("width", .ofOption (.natural ·.toNat) m.width),
    ("height", .ofOption (.natural ·.toNat) m.height),
    ("content_type", .ofOption string m.contentType)]

def CodeBlock.encode (b : CodeBlock) : Data :=
  record [("rows", list (b.rows.map string)), ("language", .ofOption string b.language),
    ("indent", .natural b.indent.toNat)]

namespace Node

def plain (type : String) : Data := record [("type", string type)]

def tagged (type : String) (value : Data) : Data := record [("type", string type), ("value", value)]

mutual

def encode : Node → Data
  | text s => tagged "text" (string s)
  | strong c => tagged "strong" (list (encodeAll c))
  | emphasize c => tagged "emphasize" (list (encodeAll c))
  | delete c => tagged "delete" (list (encodeAll c))
  | insert c => tagged "insert" (list (encodeAll c))
  | underline c => tagged "underline" (list (encodeAll c))
  | superscript c => tagged "superscript" (list (encodeAll c))
  | subscript c => tagged "subscript" (list (encodeAll c))
  | inlineCode s => tagged "inline_code" (string s)
  | link url c => tagged "link" (record [("url", string url), ("children", list (encodeAll c))])
  | linkReference label c =>
    tagged "link_reference" (record [("label", string label), ("children", list (encodeAll c))])
  | autoLinkMail s => tagged "auto_link_mail" (string s)
  | autoLinkUrl s => tagged "auto_link_url" (string s)
  | hashTag s => tagged "hash_tag" (string s)
  | emoji e => tagged "emoji" e.encode
  | htmlEntity s => tagged "html_entity" (string s)
  | htmlEntityUnicode n => tagged "html_entity_unicode" (.natural n.toNat)
  | lineBreak => plain "line_break"
  | footnoteReference key autoExpand =>
    tagged "footnote_reference"
      (record [("key", string key), ("auto_expand", boolean autoExpand)])
  | metaReference s => tagged "meta_reference" (string s)
  | detailsReference => plain "details_reference"
  | multimedia items c alone =>
    tagged "multimedia"
      (record [("items", list (items.map MediaItem.encode)), ("children", list (encodeAll c)),
        ("alone_in_paragraph", boolean alone)])
  | multimediaReference label c alone =>
    tagged "multimedia_reference"
      (record [("label", string label), ("children", list (encodeAll c)),
        ("alone_in_paragraph", boolean alone)])
  | inlineScript expression alone =>
    tagged "inline_script"
      (record [("expression", string expression), ("alone_in_paragraph", boolean alone)])
  | inlineHtml s => tagged "inline_html" (string s)
  | abbreviation title c =>
    tagged "abbreviation" (record [("title", string title), ("children", list (encodeAll c))])
  | paragraph c => tagged "paragraph" (list (encodeAll c))
  | header level c =>
    tagged "header" (record [("level", .natural level.toNat), ("children", list (encodeAll c))])
  | bulletList items => tagged "bullet_list" (list (encodeBullets items))
  | numberedList items => tagged "numbered_list" (list (encodeNumbered items))
  | taskList items => tagged "task_list" (list (encodeTasks items))
  | definitionList groups => tagged "definition_list" (list (encodeGroups groups))
  | table ⟨columns, alignments, headers, rows, caption, id⟩ =>
    tagged "table"
      (record [("columns", .natural columns.toNat),
        ("column_alignments", list (alignments.map fun a => string a.name)),
        ("headers", list (encodeRows headers)), ("rows", list (encodeRows rows)),
        ("caption", .ofOption string caption), ("id", .ofOption string id)])
  | blockQuote c => tagged "block_quote" (list (encodeAll c))
  | insertBlocks c => tagged "insert_blocks" (list (encodeAll c))
  | deleteBlocks c => tagged "delete_blocks" (list (encodeAll c))
  | codeBlock b => tagged "code_block" b.encode
  | horizontalRule => plain "horizontal_rule"
  | sectionSeparator => plain "section_separator"
  | aligned a c =>
    tagged "aligned" (record [("alignment", string a.name), ("children", list (encodeAll c))])
  | singleChild c => tagged "single_child" (encode c)
  | nestedBlock c => tagged "nested_block" (list (encodeAll c))
  | standalone c => tagged "standalone" (encode c)
  | htmlBlock c => tagged "html_block" (list (encodeAll c))
  | commentBlock lines => tagged "comment_block" (list (lines.map string))
  | invisibleBreak => plain "invisible_break"

def encodeAll : List Node → List Data
  | [] => []
  | n :: r => encode n :: encodeAll r

def encodeBullets : List Node → List Data
  | [] => []
  | n :: r => record [("child", encode n)] :: encodeBullets r

def encodeNumbered : List (NumberedItem Node) → List Data
  | [] => []
  | ⟨number, c⟩ :: r =>
    record [("number", .ofOption (.natural ·.toNat) number), ("child", encode c)]
      :: encodeNumbered r

def encodeTasks : List (TaskItem Node) → List Data
  | [] => []
  | ⟨checked, c⟩ :: r =>
    record [("checked", boolean checked), ("child", encode c)] :: encodeTasks r

def encodeGroups : List (DefinitionGroup Node) → List Data
  | [] => []
  | ⟨terms, descriptions⟩ :: r =>
    record [("terms", list (encodeAll terms)), ("descriptions", list (encodeAll descriptions))]
      :: encodeGroups r

def encodeRows : List (Row Node) → List Data
  | [] => []
  | row :: r => list (encodeRow row) :: encodeRows r

def encodeRow : Row Node → List Data
  | [] => []
  | none :: r => null :: encodeRow r
  | some ⟨c, alignment⟩ :: r =>
    record [("content", encode c), ("alignment", .ofOption (string ·.name) alignment)]
      :: encodeRow r

end

end Node

def Cell.encode (c : Cell Node) : Data :=
  record [("content", c.content.encode), ("alignment", .ofOption (string ·.name) c.alignment)]

def Footnote.encode (f : Footnote) : Data :=
  record [("key", string f.key), ("content", list (Node.encodeAll f.content))]

def Footnotes.encode (t : Footnotes) : Data := list (t.entries.map Footnote.encode)

def Directory.encode {α : Type} (value : α → Data) (d : Directory α) : Data :=
  record (d.entries.map fun e => (e.1, value e.2))

def Metadata.encode (m : Metadata) : Data :=
  record [("body_only", boolean m.bodyOnly),
    ("values", m.values.encode fun values => list (values.map string))]

def Document.encode : Document → Data
  | ⟨nodes, footnotes, references, detail, metadata⟩ =>
    record [("nodes", list (Node.encodeAll nodes)), ("footnotes", footnotes.encode),
      ("references", references.encode MediaItem.encode),
      ("detail", match detail with
        | none => null
        | some d => d.encode),
      ("metadata", metadata.encode)]

def Node.typeName (n : Node) : String :=
  match n.encode with
  | .record (("type", .string type) :: _) => type
  | _ => ""

end XamlDoc
