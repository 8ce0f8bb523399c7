import XamlDoc.Render.Node

/-!
# Rendering documents

A document is its nodes in the root element of the dialect, followed by the footnotes referred to in
them. Documents inside it, the detail document and those that scripts return, have footnote numbers of
their own and no root element. The nesting of documents of scripts is limited, because scripts may
return documents with the same scripts in them for ever.
-/

namespace XamlDoc

open Markup (Writing)

namespace Render

open Rendering Layout

/-! ### Footnotes in place -/

/-- The content of a footnote, expanded in place. Its paragraphs lose their bounds. -/
def footnoteContent [Memory] (s : Scope) : List Node → Style → Rendering Unit
  | [], _ => pure ()
  | .paragraph c :: r, st => do
    nodes s c st
    footnoteContent s r st
  | n :: r, st => do
    node s n st
    footnoteContent s r st

/-- The scope in which the footnotes `expanding` are being expanded and at most `levels` more can be.
Every level takes a declared footnote, so as many levels as footnotes are no restriction. -/
def expandingScope [Memory] (s : Scope) : Nat → List String → Scope
  | 0, expanding =>
    { s with inPlace := fun _ => none, html := s.html.expanding 0 expanding }
  | levels + 1, expanding =>
    { s with
      inPlace := fun key =>
        if expanding.contains key then none
        else (s.document.footnotes.get? key).map fun f =>
          footnoteContent (expandingScope s levels (key :: expanding)) f.content
      html := s.html.expanding (levels + 1) expanding }

/-! ### Documents -/

def rowContent [Memory] (s : Scope) (key : String) : Rendering Unit :=
  match s.document.footnotes.get? key with
  | some f => nodes s f.content .plain
  | none => pure ()

/-- The footnotes that have been numbered, with those that they refer to. -/
def footnoteRows [Memory] (s : Scope) (numbering : Numbering) : Rendering Unit :=
  if numbering.isEmpty then pure ()
  else do
    let numbering := s.document.footnotes.numberNested numbering
    modify fun p => { p with traversal := { p.traversal with numbering } }
    footnotes s.dialect (numbering.keys.map (rowContent s))

def footnoteSection [Memory] (s : Scope) : Rendering Unit := do
  footnoteRows s (← get).traversal.numbering

def ownNumbers (m : Rendering Unit) : Rendering Unit := do
  let outer := (← get).traversal.numbering
  modify fun p => { p with traversal := { p.traversal with numbering := ∅ } }
  m
  modify fun p => { p with traversal := { p.traversal with numbering := outer } }

def body [Memory] (s : Scope) : Rendering Unit :=
  ownNumbers do
    flushed s.dialect (nodes s s.document.nodes .plain)
    footnoteSection s

def documentScope [Memory] (setting : Setting) (nested : Document → Rendering Unit)
    (nestedHtml : Document → Html.Part) (d : Document) (detail? : Option (Rendering Unit)) : Scope :=
  let html : Html.Scope := {
    evaluator? := setting.extensions.evaluator?
    profile := setting.dialect.profile
    document := d
    inPlace := fun _ => none
    nested := nestedHtml }
  expandingScope ⟨setting, d, fun _ => none, detail?, nested, html⟩ d.footnotes.size []

def included [Memory] (setting : Setting) (nested : Document → Rendering Unit)
    (nestedHtml : Document → Html.Part) : Document → Rendering Unit
  | ⟨nodes, footnotes, references, none, metadata⟩ =>
    body (documentScope setting nested nestedHtml ⟨nodes, footnotes, references, none, metadata⟩ none)
  | ⟨nodes, footnotes, references, some detail, metadata⟩ =>
    body (documentScope setting nested nestedHtml
      ⟨nodes, footnotes, references, some detail, metadata⟩
      (some (included setting nested nestedHtml detail)))

/-- A document that a script returned, with documents of scripts nested at most `limit` deep. -/
def scriptDocument [Memory] (setting : Setting) : Nat → Document → Rendering Unit
  | 0, _ => throw .tooDeep
  | limit + 1, d =>
    included setting (scriptDocument setting limit)
      (Html.nestedDocument setting.extensions.evaluator? setting.dialect.profile limit) d

/-- A document, in the root element unless it is to be included in another. -/
def document [Memory] (setting : Setting) (limit : Nat) (d : Document) (inclusion : Bool) : Rendering Unit :=
  let content := included setting (scriptDocument setting limit)
    (Html.nestedDocument setting.extensions.evaluator? setting.dialect.profile limit) d
  if inclusion || d.metadata.bodyOnly then content
  else element setting.dialect.root content

end Render

/-- After an error, what was opened at this depth and deeper is closed again. -/
def unwound (depth : Nat) : Except RenderError (Unit × Progress) → Writing (Except RenderError Unit)
  | .ok _ => pure (.ok ())
  | .error e => do
    let _ ← Writing.closeTo depth
    pure (.error e)

/-- Render a document from a state of the token. Documents returned by scripts may be nested `limit`
deep. -/
def renderFrom [Memory] (setting : Setting) (limit : Nat) (d : Document) (inclusion : Bool) (t : Traversal) :
    Writing (Except RenderError Unit) := do
  let depth ← Writing.depth
  let result ← (Render.document setting limit d inclusion) ⟨t, ∅⟩
  unwound depth result

/-- Render a document with a token that is fired from outside after `fuse?` visits of nodes, if it is
fired. -/
def renderUntil [Memory] (setting : Setting) (limit : Nat) (d : Document) (inclusion : Bool)
    (fuse? : Option Nat) : Writing (Except RenderError Unit) :=
  renderFrom setting limit d inclusion (.start fuse?)

/-- Render a document, with a token that was cancelled before the start or is left alone. -/
def render [Memory] (setting : Setting) (limit : Nat) (d : Document) (inclusion cancelled : Bool) :
    Writing (Except RenderError Unit) :=
  renderUntil setting limit d inclusion (if cancelled then some 0 else none)

end XamlDoc
