import XamlDoc.Markup.Call
import XamlDoc.Markup.Xml.Escape

/-!
# Pieces of an XML text

The units an XML text is written in, their written form, and their place on the lines of an
indented text. A line break goes only between two pieces of markup, never next to character data.
-/

namespace XamlDoc.Markup.Xml

inductive Event where
  | start (tag : Tag)
  | empty (tag : Tag)
  | close (name : String)
  | text (content : String)
  /-- Verbatim content without a terminator in it. -/
  | cdata (content : String)
  | comment (content : String)

def attributeMarkup (a : Attribute) : String := " " ++ a.1 ++ "=\"" ++ escape a.2 ++ "\""

def tagMarkup (t : Tag) : String :=
  t.name ++ String.join (t.attributes.map attributeMarkup)

def Event.markup : Event → String
  | .start tag => "<" ++ tagMarkup tag ++ ">"
  | .empty tag => "<" ++ tagMarkup tag ++ "/>"
  | .close name => "</" ++ name ++ ">"
  | .text content => escape content
  | .cdata content => "<![CDATA[" ++ content ++ "]]>"
  | .comment content => "<!--" ++ content ++ "-->"

/-! ### Lines -/

structure Layout where
  /-- Spaces for each open element; `none` writes everything on one line. -/
  step? : Option Nat
  indent : Nat
  atBreak : Bool

def Layout.compact : Layout := ⟨none, 0, false⟩

def Layout.indented (step : Nat) : Layout := ⟨some step, 0, false⟩

def Layout.lead (l : Layout) : String :=
  if l.step?.isSome && l.atBreak then
    String.ofList ('\n' :: List.replicate l.indent ' ')
  else ""

def Layout.place (l : Layout) : Event → String × Layout
  | .start _ => (l.lead, { l with indent := l.indent + l.step?.getD 0, atBreak := true })
  | .empty _ | .comment _ => (l.lead, { l with atBreak := true })
  | .close _ =>
    let l := { l with indent := l.indent - l.step?.getD 0 }
    (l.lead, { l with atBreak := true })
  | .text _ | .cdata _ => ("", { l with atBreak := false })

end XamlDoc.Markup.Xml
