import XamlDoc.Dialect.Profile
import XamlDoc.Document.Basic
import XamlDoc.Extension.Image
import XamlDoc.Text.Decimal

/-!
# Inline scripts

What an expression of a document may stand for, and how its evaluation may fail. An error with inner
errors is an aggregate; a wrapper around a single error is taken off before the error is shown.
-/

namespace XamlDoc

inductive ScriptValue where
  | null
  | text (content : String)
  | number (value : Float)
  | boolean (value : Bool)
  | image (source : Image)
  | bitmap (png : List UInt8) (width height : UInt32)
  /-- A plot; where it has no size the default graph size applies. -/
  | graph (png : List UInt8) (width height : Option UInt32)
  | document (d : Document)

namespace ScriptValue

def text? : ScriptValue → Option String
  | .text content => some content
  | .number x => some (Text.decimal x)
  | .boolean b => some (if b then "true" else "false")
  | _ => none

def image? (p : Profile) : ScriptValue → Option Image
  | .image source => some source
  | .bitmap png width height => some ⟨Image.pngUri png, some width, some height⟩
  | .graph png width height =>
    some ⟨Image.pngUri png, some (width.getD p.defaultGraphWidth),
      some (height.getD p.defaultGraphHeight)⟩
  | _ => none

end ScriptValue

structure ScriptError where
  message : String
  inner : List ScriptError

namespace ScriptError

def ofMessage (message : String) : ScriptError := ⟨message, []⟩

def unnest : ScriptError → ScriptError
  | ⟨_, [e]⟩ => e.unnest
  | e => e

def isAggregate (e : ScriptError) : Bool := !e.inner.isEmpty

/-- One line for each inner error, or the message if there is none. -/
def lines (e : ScriptError) : List String :=
  if e.isAggregate then e.inner.map ScriptError.message else [e.message]

end ScriptError

structure Evaluation where
  result : Except ScriptError ScriptValue
  cancels : Bool

abbrev Evaluator := String → Evaluation

end XamlDoc
