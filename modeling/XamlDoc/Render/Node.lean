import XamlDoc.Render.Layout

/-!
# Nodes as elements

The rendering of a node in a style. Spans let runs wait; a block first writes the runs that wait before
it. The token is looked at before every node. What lies outside the node itself, such as the contents of
footnotes and other documents, comes from its scope.
-/

namespace XamlDoc

open Markup (Call WriteError Writing)

structure Setting where
  dialect : Dialect
  extensions : Extensions

structure Scope where
  setting : Setting
  document : Document
  /-- The content of a declared footnote that is not being expanded. -/
  inPlace : String → Option (Style → Rendering Unit)
  detail? : Option (Rendering Unit)
  nested : Document → Rendering Unit
  html : Html.Scope

namespace Scope

def dialect (s : Scope) : Dialect := s.setting.dialect

def profile (s : Scope) : Profile := s.setting.dialect.profile

def extensions (s : Scope) : Extensions := s.setting.extensions

end Scope

namespace Render

open Rendering Layout

/-! ### Extensions -/

def offer (handler : HandlerContext → Writing Handled) (s : Scope) (alignment : Alignment) :
    Rendering (Except HandlerError HandlerOutcome) := do
  let handled ← ofQuiet (handler ⟨alignment, s.dialect⟩)
  cancelIf handled.cancels
  pure handled.result

/-- Close what a handler left open, whether that works or not. -/
def unwind (depth : Nat) : Rendering Unit :=
  ofQuiet ((Writing.closeTo depth).bind fun _ => .done ())

/-- Offer a node to a handler. Failures to write end the rendering; if the handler declined or
failed otherwise, `fallback` gets its messages. -/
def offered (handler : HandlerContext → Writing Handled) (s : Scope) (alignment : Alignment)
    (fallback : List String → Rendering Unit) : Rendering Unit := do
  let depth ← ofQuiet Writing.depth
  match ← offer handler s alignment with
  | .ok .rendered => ofWriting (Writing.closeTo depth)
  | .ok .declined =>
    unwind depth
    fallback []
  | .error (.write e) => throw (.write e)
  | .error e =>
    unwind depth
    fallback e.messages

/-- Offer media items to their handlers in turn, up to the first that renders one. -/
def media (s : Scope) (st : Style) (alternative : Rendering Unit) :
    List MediaItem → Rendering Unit
  | [] => alternative
  | item :: r =>
    match item.type?.bind s.extensions.mediaHandler? with
    | none => media s st alternative r
    | some handler => do
      flush s.profile
      offered (handler item) s st.alignment fun _ => media s st alternative r

def plainCode (s : Scope) (st : Style) (b : CodeBlock) : Rendering Unit :=
  codeRows s.dialect st b.rows

/-- A code block, by the handler of its language if there is one. Messages of the handler stand
before the rows. -/
def code (s : Scope) (st : Style) (b : CodeBlock) : Rendering Unit :=
  match b.language.bind s.extensions.codeHandler? with
  | none => plainCode s st b
  | some handler =>
    offered (handler b) s st.alignment fun messages => do
      inOrder (messages.map (errorBlock s.dialect st.alignment))
      plainCode s st b

/-! ### Scripts and emoji -/

def image (s : Scope) (i : Image) : Rendering Unit := do
  flush s.profile
  emit i.calls

def scriptValue (s : Scope) (st : Style) (alone : Bool) (v : ScriptValue) : Rendering Unit :=
  match v.text? with
  | some t =>
    if alone then do
      flush s.profile
      textBlock s.dialect st.alignment t
    else text t st
  | none =>
    match v.image? s.profile with
    | some i => image s i
    | none =>
      match v with
      | .document d => do
        flush s.profile
        s.nested d
      | _ => pure ()

def scriptError (s : Scope) (st : Style) (alone : Bool) (e : ScriptError) : Rendering Unit :=
  if !alone && !e.isAggregate then
    appendRun { Run.ofStyle e.message st with error := true } st.alignment
  else do
    flush s.profile
    inOrder (e.lines.map (errorBlock s.dialect st.alignment))

def script (s : Scope) (st : Style) (expression : String) (alone : Bool) : Rendering Unit :=
  match s.extensions.evaluator? with
  | none => text expression { st with code := true }
  | some evaluate => do
    let e := evaluate expression
    cancelIf e.cancels
    match e.result with
    | .ok v => scriptValue s st alone v
    | .error e => scriptError s st alone e.unnest

def emojiName (e : Emoji) : String :=
  let colons := Text.repeated ":" (max e.level.toNat 1)
  colons ++ e.shortName ++ colons

/-- An emoji on its own: as a picture, as a character, or by name if there are no pictures. -/
def standaloneEmoji (s : Scope) (st : Style) (e : Emoji) : Rendering Unit :=
  match s.extensions.emojiSource? with
  | none => text (emojiName e) st
  | some source =>
    match if source.supports e then source.image? e else none with
    | some i => emit i.calls
    | none => text e.unicode st

/-! ### References -/

/-- A reference to a footnote; to an undeclared one it is nothing. -/
def footnoteReference (s : Scope) (st : Style) (key : String) (autoExpand : Bool) :
    Rendering Unit :=
  match s.document.footnotes.get? key with
  | none => pure ()
  | some _ =>
    match if autoExpand then s.inPlace key else none with
    | some content => content st
    | none => do
      let number ← ofPass (modifyGet fun t => t.reference key)
      text (toString number) { st with superscript := true }

def metaText (s : Scope) (st : Style) (key : String) : Rendering Unit :=
  match s.document.metadata.joined? key with
  | some value => text value st
  | none => pure ()

/-- The detail document, or the value of its key if there is none. -/
def details (s : Scope) (st : Style) : Rendering Unit :=
  match s.detail? with
  | some detail => do
    flush s.profile
    detail
  | none => metaText s st "Details"

def html [Memory] (s : Scope) (st : Style) (extra : List Markup.Attribute) (children : List Node) :
    Rendering Unit := do
  let fragments ← ofPass (Html.nodes s.html children)
  htmlBlock s.dialect st.alignment extra (Html.markupAll fragments)

/-! ### Nodes -/

def span (m : Rendering Unit) : Rendering Unit := visit m

def block (s : Scope) (m : Rendering Unit) : Rendering Unit :=
  visit do
    flush s.profile
    m

/-- A wrapper or group, which is a span if `isInline` says so. -/
def spanOrBlock (s : Scope) (isInline : Bool) (m : Rendering Unit) : Rendering Unit :=
  if isInline then span m else block s m

def standalone (s : Scope) (st : Style) (m : Rendering Unit) : Rendering Unit :=
  block s (padded s.dialect .block st.alignment (flushed s.dialect m))

mutual

def node [Memory] (s : Scope) : Node → Style → Rendering Unit
  | .text t, st | .hashTag t, st => span (text t st)
  | .strong c, st => span (nodes s c { st with bold := true })
  | .emphasize c, st => span (nodes s c { st with italic := true })
  | .delete c, st => span (nodes s c { st with strikeThrough := true })
  | .insert c, st | .underline c, st => span (nodes s c { st with underline := true })
  | .superscript c, st => span (nodes s c { st with superscript := true })
  | .subscript c, st => span (nodes s c { st with subscript := true })
  | .inlineCode t, st => span (text t { st with code := true })
  | .link url c, st => span (nodes s c { st with hyperlink := some url })
  | .linkReference label c, st =>
    span (nodes s c (match s.document.references.get? label with
      | some target => { st with hyperlink := some target.url }
      | none => st))
  | .autoLinkMail address, st =>
    span (text address { st with hyperlink := some ("mailto:" ++ address) })
  | .autoLinkUrl url, st => span (text url { st with hyperlink := some url })
  | .emoji e, st => span (text e.unicode st)
  | .htmlEntity name, st => span (text (Html.entityText name) st)
  | .htmlEntityUnicode code, st =>
    span (match Html.charOfCode? code with
      | some c => text c.toString st
      | none => pure ())
  | .lineBreak, st => span (text "\n" st)
  | .footnoteReference key autoExpand, st => span (footnoteReference s st key autoExpand)
  | .metaReference key, st => span (metaText s st key)
  | .detailsReference, st => span (details s st)
  | .multimedia items c _, st => span (media s st (nodes s c st) items)
  | .multimediaReference label c _, st =>
    span (media s st (nodes s c st) (s.document.references.get? label).toList)
  | .inlineScript expression alone, st => span (script s st expression alone)
  | .inlineHtml markup, _ => span (comment markup)
  | .abbreviation _ c, st => span (nodes s c st)
  | .paragraph c, st =>
    block s (padded s.dialect .block st.alignment (flushed s.dialect (nodes s c st)))
  | .header level c, st =>
    block s (html s st (s.dialect.headerAttributes level.toNat) c)
  | .bulletList items, st => block s (list s.dialect st (bullets (parts s items)))
  | .numberedList items, st => block s (list s.dialect st (numbers (numberedParts s items)))
  | .taskList items, st => block s (list s.dialect st (checks (taskParts s items)))
  | .definitionList g, st => block s (definitionList s.dialect st (groupParts s g))
  | .table ⟨columns, alignments, headers, rows, caption, id⟩, _ =>
    block s (table s.dialect
      ⟨columns, alignments, rowParts s headers, rowParts s rows, caption, id⟩)
  | .blockQuote c, st => block s (panel s.dialect .quote st (nodes s c st))
  | .insertBlocks c, st => block s (panel s.dialect .insert st (nodes s c st))
  | .deleteBlocks c, st => block s (panel s.dialect .delete st (nodes s c st))
  | .codeBlock b, st => block s (code s st b)
  | .horizontalRule, _ | .sectionSeparator, _ => block s (rule s.dialect)
  | .aligned a c, st => block s (stacked s.dialect (nodes s c { st with alignment := a.text }))
  | .singleChild c, st => spanOrBlock s c.isInline (node s c st)
  | .nestedBlock c, st =>
    if (Node.nestedBlock c).isInline then span (nodes s c st)
    else block s (flushed s.dialect (nodes s c st))
  | .standalone (.emoji e), st => standalone s st (standaloneEmoji s st e)
  | .standalone (.inlineScript expression _), st => standalone s st (script s st expression false)
  | .standalone c, st => standalone s st (node s c st)
  | .htmlBlock c, st => block s (html s st [] c)
  | .commentBlock _, _ | .invisibleBreak, _ => block s (pure ())

def nodes [Memory] (s : Scope) : List Node → Style → Rendering Unit
  | [], _ => pure ()
  | n :: r, st => do
    node s n st
    nodes s r st

def parts [Memory] (s : Scope) : List Node → List Part
  | [] => []
  | n :: r => ⟨n.margins, n.isInline, node s n⟩ :: parts s r

def numberedParts [Memory] (s : Scope) : List (NumberedItem Node) → List (NumberedItem Part)
  | [] => []
  | ⟨number, n⟩ :: r => ⟨number, n.margins, n.isInline, node s n⟩ :: numberedParts s r

def taskParts [Memory] (s : Scope) : List (TaskItem Node) → List (TaskItem Part)
  | [] => []
  | ⟨checked, n⟩ :: r => ⟨checked, n.margins, n.isInline, node s n⟩ :: taskParts s r

def groupParts [Memory] (s : Scope) : List (DefinitionGroup Node) → List (DefinitionGroup Part)
  | [] => []
  | ⟨terms, descriptions⟩ :: r => ⟨parts s terms, parts s descriptions⟩ :: groupParts s r

def rowParts [Memory] (s : Scope) : List (Row Node) → List (Row Part)
  | [] => []
  | cells :: r => cellParts s cells :: rowParts s r

def cellParts [Memory] (s : Scope) : Row Node → Row Part
  | [] => []
  | none :: r => none :: cellParts s r
  | some ⟨n, alignment⟩ :: r => some ⟨⟨n.margins, n.isInline, node s n⟩, alignment⟩ :: cellParts s r

end

end Render

end XamlDoc
