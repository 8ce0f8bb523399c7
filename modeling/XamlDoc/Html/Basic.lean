import XamlDoc.Html.Entity
import XamlDoc.Markup.Xml.Comment
import XamlDoc.Text.Split

/-!
# HTML fragments

The HTML inside a label, as a tree over a fixed set of tags and attributes, and its text.
-/

namespace XamlDoc.Html

inductive Tag where
  | strong | em | del | ins | u | sup | sub | code | a | abbr | span
  | p | h1 | h2 | h3 | h4 | h5 | h6 | ul | ol | li | dl | dt | dd
  | table | caption | tr | th | td | blockquote | pre | div
  deriving DecidableEq, Repr

def Tag.name : Tag → String
  | strong => "strong" | em => "em" | del => "del" | ins => "ins" | u => "u" | sup => "sup"
  | sub => "sub" | code => "code" | a => "a" | abbr => "abbr" | span => "span" | p => "p"
  | h1 => "h1" | h2 => "h2" | h3 => "h3" | h4 => "h4" | h5 => "h5" | h6 => "h6" | ul => "ul"
  | ol => "ol" | li => "li" | dl => "dl" | dt => "dt" | dd => "dd" | table => "table"
  | caption => "caption" | tr => "tr" | th => "th" | td => "td" | blockquote => "blockquote"
  | pre => "pre" | div => "div"

def Tag.heading : Nat → Tag
  | 0 | 1 => h1
  | 2 => h2
  | 3 => h3
  | 4 => h4
  | 5 => h5
  | _ => h6

inductive VoidTag where
  | br | hr | img
  deriving DecidableEq, Repr

def VoidTag.name : VoidTag → String
  | br => "br" | hr => "hr" | img => "img"

inductive AttributeName where
  | href | title | value | id | colspan | style | src | alt | width | height
  deriving DecidableEq, Repr

def AttributeName.text : AttributeName → String
  | href => "href" | title => "title" | value => "value" | id => "id" | colspan => "colspan"
  | style => "style" | src => "src" | alt => "alt" | width => "width" | height => "height"

abbrev Attributes := List (AttributeName × String)

inductive Fragment where
  | text (content : String)
  | verbatim (markup : String)
  | comment (content : String)
  | element (tag : Tag) (attributes : Attributes) (children : List Fragment)
  | void (tag : VoidTag) (attributes : Attributes)

/-! ### Text of fragments -/

def attributesMarkup : Attributes → String
  | [] => ""
  | (name, value) :: r => " " ++ name.text ++ "=\"" ++ escape value ++ "\"" ++ attributesMarkup r

/-- Comment text with its pairs of dashes spread apart in one pass. -/
def commentText (s : String) : String := String.ofList (Markup.Xml.spreadOnce s.toList)

mutual

def Fragment.markup : Fragment → String
  | .text content => escape content
  | .verbatim markup => markup
  | .comment content => "<!-- " ++ commentText content ++ " -->"
  | .element tag attributes children =>
    "<" ++ tag.name ++ attributesMarkup attributes ++ ">" ++ markupAll children
      ++ "</" ++ tag.name ++ ">"
  | .void tag attributes => "<" ++ tag.name ++ attributesMarkup attributes ++ "/>"

def markupAll : List Fragment → String
  | [] => ""
  | f :: r => f.markup ++ markupAll r

end

def wrap (tag : Tag) (children : List Fragment) : Fragment := .element tag [] children

def codeText (code : String) : Fragment := wrap .code [.text code]

def link (url : String) (children : List Fragment) : Fragment := .element .a [(.href, url)] children

def footnoteNumber (number : Nat) : Fragment :=
  wrap .sup [link ("#fn-" ++ toString number) [.text (toString number)]]

def errorText (lines : List String) : Fragment :=
  .element .span [(.style, "color:red")] [.text (Text.join " " lines)]

end XamlDoc.Html
