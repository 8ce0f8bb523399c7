import XamlDoc.Data.Decoder
import XamlDoc.Document.Encoding

/-!
# Documents out of data

What data are accepted as documents. Media items, tables, documents and metadata may leave out any of
their fields; of the other records only a few fields may be left out.
-/

namespace XamlDoc

open Decoder

def Alignment.decode : Decoder Alignment :=
  choice [("left", .left), ("center", .center), ("right", .right)]

def BlockAlignment.decode : Decoder BlockAlignment :=
  choice [("left", .left), ("center", .center), ("right", .right), ("margin", .margin)]

def Emoji.decode : Decoder Emoji := fun d => do
  let f ← Fields.of? ["short_name", "unicode", "level"] d
  return {
    shortName := ← f.required "short_name" string
    unicode := ← f.required "unicode" string
    level := ← f.withDefault "level" 1 byte }

def MediaItem.decode : Decoder MediaItem := fun d => do
  let f ← Fields.of? ["url", "title", "width", "height", "content_type"] d
  return {
    url := ← f.withDefault "url" "" string
    title := ← f.optional "title" string
    width := ← f.optional "width" word32
    height := ← f.optional "height" word32
    contentType := ← f.optional "content_type" string }

def CodeBlock.decode : Decoder CodeBlock := fun d => do
  let f ← Fields.of? ["rows", "language", "indent"] d
  return {
    rows := ← f.required "rows" (list string)
    language := ← f.optional "language" string
    indent := ← f.withDefault "indent" 0 word64 }

/-! ### Records over the decoder of their nodes -/

section

variable (node : Decoder Node)

def bulletItem : Decoder Node := fun d => do
  let f ← Fields.of? ["child"] d
  f.required "child" node

def NumberedItem.decode : Decoder (NumberedItem Node) := fun d => do
  let f ← Fields.of? ["number", "child"] d
  return { number := ← f.optional "number" word32, child := ← f.required "child" node }

def TaskItem.decode : Decoder (TaskItem Node) := fun d => do
  let f ← Fields.of? ["checked", "child"] d
  return { checked := ← f.required "checked" boolean, child := ← f.required "child" node }

def DefinitionGroup.decode : Decoder (DefinitionGroup Node) := fun d => do
  let f ← Fields.of? ["terms", "descriptions"] d
  return {
    terms := ← f.required "terms" (list node)
    descriptions := ← f.required "descriptions" (list node) }

def Cell.decode : Decoder (Cell Node) := fun d => do
  let f ← Fields.of? ["content", "alignment"] d
  return {
    content := ← f.required "content" node
    alignment := ← f.optional "alignment" Alignment.decode }

def Row.decode : Decoder (Row Node) := list (nullable (Cell.decode node))

def Table.decode : Decoder (Table Node) := fun d => do
  let f ← Fields.of? ["columns", "column_alignments", "headers", "rows", "caption", "id"] d
  return {
    columns := ← f.withDefault "columns" 0 word64
    columnAlignments := ← f.withDefault "column_alignments" [] (list Alignment.decode)
    headers := ← f.withDefault "headers" [] (list (Row.decode node))
    rows := ← f.withDefault "rows" [] (list (Row.decode node))
    caption := ← f.optional "caption" string
    id := ← f.optional "id" string }

/-- The fields of the content of a node. They are never written as a list. -/
def contentFields? (names : List String) : Data → Option Fields
  | .record fields => Fields.of? names (.record fields)
  | _ => none

def Node.decodeLink : Decoder Node := fun d => do
  let f ← contentFields? ["url", "children"] d
  return .link (← f.required "url" string) (← f.required "children" (list node))

def Node.decodeLinkReference : Decoder Node := fun d => do
  let f ← contentFields? ["label", "children"] d
  return .linkReference (← f.required "label" string) (← f.required "children" (list node))

def Node.decodeFootnoteReference : Decoder Node := fun d => do
  let f ← contentFields? ["key", "auto_expand"] d
  return .footnoteReference (← f.required "key" string) (← f.required "auto_expand" boolean)

def Node.decodeMultimedia : Decoder Node := fun d => do
  let f ← Fields.of? ["items", "children", "alone_in_paragraph"] d
  return .multimedia (← f.required "items" (list MediaItem.decode))
    (← f.required "children" (list node)) (← f.withDefault "alone_in_paragraph" false boolean)

def Node.decodeMultimediaReference : Decoder Node := fun d => do
  let f ← contentFields? ["label", "children", "alone_in_paragraph"] d
  return .multimediaReference (← f.required "label" string)
    (← f.required "children" (list node)) (← f.required "alone_in_paragraph" boolean)

def Node.decodeInlineScript : Decoder Node := fun d => do
  let f ← contentFields? ["expression", "alone_in_paragraph"] d
  return .inlineScript (← f.required "expression" string)
    (← f.required "alone_in_paragraph" boolean)

def Node.decodeAbbreviation : Decoder Node := fun d => do
  let f ← contentFields? ["title", "children"] d
  return .abbreviation (← f.required "title" string) (← f.required "children" (list node))

def Node.decodeHeader : Decoder Node := fun d => do
  let f ← contentFields? ["level", "children"] d
  return .header (← f.required "level" byte) (← f.required "children" (list node))

def Node.decodeAligned : Decoder Node := fun d => do
  let f ← contentFields? ["alignment", "children"] d
  return .aligned (← f.required "alignment" BlockAlignment.decode)
    (← f.required "children" (list node))

def Node.plainOf? : String → Option Node
  | "line_break" => some .lineBreak
  | "details_reference" => some .detailsReference
  | "horizontal_rule" => some .horizontalRule
  | "section_separator" => some .sectionSeparator
  | "invisible_break" => some .invisibleBreak
  | _ => none

def Node.ofContent? (type : String) (d : Data) : Option Node :=
  match type with
  | "text" => (string d).map .text
  | "strong" => (list node d).map .strong
  | "emphasize" => (list node d).map .emphasize
  | "delete" => (list node d).map .delete
  | "insert" => (list node d).map .insert
  | "underline" => (list node d).map .underline
  | "superscript" => (list node d).map .superscript
  | "subscript" => (list node d).map .subscript
  | "inline_code" => (string d).map .inlineCode
  | "link" => decodeLink node d
  | "link_reference" => decodeLinkReference node d
  | "auto_link_mail" => (string d).map .autoLinkMail
  | "auto_link_url" => (string d).map .autoLinkUrl
  | "hash_tag" => (string d).map .hashTag
  | "emoji" => (Emoji.decode d).map .emoji
  | "html_entity" => (string d).map .htmlEntity
  | "html_entity_unicode" => (word32 d).map .htmlEntityUnicode
  | "footnote_reference" => decodeFootnoteReference d
  | "meta_reference" => (string d).map .metaReference
  | "multimedia" => decodeMultimedia node d
  | "multimedia_reference" => decodeMultimediaReference node d
  | "inline_script" => decodeInlineScript d
  | "inline_html" => (string d).map .inlineHtml
  | "abbreviation" => decodeAbbreviation node d
  | "paragraph" => (list node d).map .paragraph
  | "header" => decodeHeader node d
  | "bullet_list" => (list (bulletItem node) d).map .bulletList
  | "numbered_list" => (list (NumberedItem.decode node) d).map .numberedList
  | "task_list" => (list (TaskItem.decode node) d).map .taskList
  | "definition_list" => (list (DefinitionGroup.decode node) d).map .definitionList
  | "table" => (Table.decode node d).map .table
  | "block_quote" => (list node d).map .blockQuote
  | "insert_blocks" => (list node d).map .insertBlocks
  | "delete_blocks" => (list node d).map .deleteBlocks
  | "code_block" => (CodeBlock.decode d).map .codeBlock
  | "aligned" => decodeAligned node d
  | "single_child" => (node d).map .singleChild
  | "nested_block" => (list node d).map .nestedBlock
  | "standalone" => (node d).map .standalone
  | "html_block" => (list node d).map .htmlBlock
  | "comment_block" => (list string d).map .commentBlock
  | _ => match plainOf? type, d with
    | some n, .null => some n
    | _, _ => none

/-- A node from its kind and its content. What stands before the kind has to be readable as a
whole, because it is kept until the kind is known. -/
def Node.ofFields? (f : Fields) : Option Node := do
  let type ← f.required "type" string
  match f.lookup "value" with
  | none => plainOf? type
  | some d =>
    let early := (f.takeWhile fun e => e.1 != "type").lookup "value"
    if early.all Data.isReadable then ofContent? node type d else none

end

/-- Nodes nested at most `n` levels deep. -/
def Node.decodeTo : Nat → Decoder Node
  | 0, _ => none
  | n + 1, d => do
    match d with
    | .list items => guard (items.length = 2)
    | _ => pure ()
    let f ← Fields.of? ["type", "value"] d
    Node.ofFields? (Node.decodeTo n) f

/-- A node, however deep. Each level of nodes takes a level of the data. -/
def Node.decode : Decoder Node := fun d => Node.decodeTo d.depth d

def Footnote.decode : Decoder Footnote := fun d => do
  let f ← Fields.of? ["key", "content"] d
  return { key := ← f.required "key" string, content := ← f.required "content" (list Node.decode) }

def Footnotes.decode : Decoder Footnotes := fun d => (list Footnote.decode d).map .mk

def Directory.decode {α : Type} (value : Decoder α) : Decoder (Directory α) := fun d =>
  (mapping value d).map .ofList

def Metadata.decode : Decoder Metadata := fun d => do
  let f ← Fields.of? ["body_only", "values"] d
  return {
    bodyOnly := ← f.withDefault "body_only" false boolean
    values := ← f.withDefault "values" ∅ (Directory.decode (list string)) }

/-- Documents with detail documents nested at most `n` levels deep. -/
def Document.decodeTo : Nat → Decoder Document
  | 0, _ => none
  | n + 1, d => do
    let f ← Fields.of? ["nodes", "footnotes", "references", "detail", "metadata"] d
    return {
      nodes := ← f.withDefault "nodes" [] (list Node.decode)
      footnotes := ← f.withDefault "footnotes" ∅ Footnotes.decode
      references := ← f.withDefault "references" ∅ (Directory.decode MediaItem.decode)
      detail := ← f.optional "detail" (Document.decodeTo n)
      metadata := ← f.withDefault "metadata" .empty Metadata.decode }

def Document.decode : Decoder Document := fun d => Document.decodeTo d.depth d

end XamlDoc
