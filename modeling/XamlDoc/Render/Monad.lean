import XamlDoc.Extension.Registry
import XamlDoc.Html.Traversal
import XamlDoc.Inline.Run

/-!
# Renderings

A rendering is a writing that hands on the state of the traversal and the waiting runs, and may end
with an error. What it opens it closes again, so elements are written as brackets around their
content; after an error the caller closes what is still open.
-/

namespace XamlDoc

open Markup (Attribute Call Tag Writing)

structure Progress where
  traversal : Traversal
  /-- Runs that wait for the block around them. -/
  runs : RunBuffer

abbrev Rendering := StateT Progress (ExceptT RenderError Writing)

namespace Rendering

variable {α : Type}

def ofWriting (w : Writing (Except Markup.WriteError α)) : Rendering α := fun p =>
  w.bind fun
    | .ok a => .done (.ok (a, p))
    | .error e => .done (.error (.write e))

def ofQuiet (w : Writing α) : Rendering α := fun p => w.bind fun a => .done (.ok (a, p))

def emit (calls : List Call) : Rendering Unit := ofWriting (Writing.calls calls)

def element (tag : Tag) (content : Rendering Unit) : Rendering Unit := do
  emit (Call.ofTag tag)
  content
  emit [.close]

def leaf (tag : Tag) : Rendering Unit := emit (Call.ofTag tag ++ [.close])

/-- Go on unless the token has fired. -/
def visit (m : Rendering Unit) : Rendering Unit := do
  if (← get).traversal.stops then throw .cancelled
  modify fun p => { p with traversal := p.traversal.tick }
  m

def cancelIf (cancels : Bool) : Rendering Unit :=
  modify fun p => { p with traversal := p.traversal.cancelIf cancels }

def ofPass (m : Html.Pass α) : Rendering α := fun p =>
  match m p.traversal with
  | .ok (a, t) => .done (.ok (a, { p with traversal := t }))
  | .error h => .done (.error h.error)

/-! ### Runs -/

def appendRun (r : Run) (alignment : Alignment) : Rendering Unit :=
  modify fun p => { p with runs := p.runs.append r alignment }

/-- Let text wait in a style. Empty text is no run. -/
def text (t : String) (s : Style) : Rendering Unit :=
  if t = "" then pure () else appendRun (.ofStyle t s) s.alignment

def comment (t : String) : Rendering Unit :=
  modify fun p => { p with runs := p.runs.appendComment t }

def flush (profile : Profile) : Rendering Unit := do
  let runs ← modifyGet fun p => (p.runs, { p with runs := ∅ })
  emit (runs.calls profile)

end Rendering

end XamlDoc
