/-!
# Calls of a markup writer

Markup is written forward only, by six kinds of call. An attribute belongs to the element opened
last and must come before any content of it. A kind of writer says how it answers each call and how
many elements it has open.
-/

namespace XamlDoc.Markup

abbrev Attribute := String × String

structure Tag where
  name : String
  attributes : List Attribute
  deriving DecidableEq, Repr

inductive Call where
  | element (name : String)
  | attr (name value : String)
  /-- Character data, to be escaped. -/
  | text (content : String)
  /-- Content that reaches the reader verbatim. -/
  | raw (content : String)
  | comment (content : String)
  | close
  deriving DecidableEq, Repr

def Call.ofTag (t : Tag) : List Call := .element t.name :: t.attributes.map fun a => .attr a.1 a.2

inductive WriteError where
  | output (reason : String)
  | misplacedAttribute (name : String)
  | noOpenElement
  | finished
  deriving DecidableEq, Repr

def WriteError.message : WriteError → String
  | .output reason => "XML write error: " ++ reason
  | .misplacedAttribute name => "attribute `" ++ name ++ "` written after element content"
  | .noOpenElement => "no element is open"
  | .finished => "writer already finished"

class Writer (σ : Type) where
  perform : Call → σ → Except WriteError Unit × σ
  /-- Number of open elements. -/
  depth : σ → Nat

end XamlDoc.Markup
