import XamlDoc.Dialect.Vocabulary
import XamlDoc.Inline.Style
import XamlDoc.Text.Scripted

/-!
# Runs

A run is a piece of text in one style. Runs wait in a buffer until the block around them is written;
then they become the spans of one label, which is aligned as the first of them. Comments wait with
them and keep their place.
-/

namespace XamlDoc

open Markup (Attribute Call Tag)

structure Run where
  text : String
  bold : Bool
  italic : Bool
  strikeThrough : Bool
  underline : Bool
  code : Bool
  hyperlink : Option String
  error : Bool
  deriving DecidableEq, Repr

namespace Run

/-- The run of `text` in a style. Raised and lowered text is made of other characters. -/
def ofStyle (text : String) (s : Style) : Run where
  text :=
    if s.superscript then Text.superscript text
    else if s.subscript then Text.subscript text
    else text
  bold := s.bold
  italic := s.italic
  strikeThrough := s.strikeThrough
  underline := s.underline
  code := s.code
  hyperlink := s.hyperlink
  error := false

def fontAttributes (r : Run) : List Attribute :=
  match r.bold, r.italic with
  | true, true => [("FontAttributes", "Italic, Bold")]
  | true, false => [("FontAttributes", "Bold")]
  | false, true => [("FontAttributes", "Italic")]
  | false, false => []

def textDecorations (r : Run) : List Attribute :=
  match r.strikeThrough, r.underline with
  | true, true => [("TextDecorations", "Strikethrough, Underline")]
  | true, false => [("TextDecorations", "Strikethrough")]
  | false, true => [("TextDecorations", "Underline")]
  | false, false => []

/-- The link that the run stands for; an error message is no link. -/
def target? (r : Run) : Option String := if r.error then none else r.hyperlink

def colour (p : Profile) (r : Run) : List Attribute :=
  if r.error then [("TextColor", p.errorColor)]
  else if r.hyperlink.isSome then [("TextColor", p.hyperlinkColor)]
  else []

def tag (p : Profile) (r : Run) : Tag where
  name := "Span"
  attributes :=
    [("Text", r.text)] ++ r.fontAttributes ++ r.textDecorations
      ++ (if r.code then [("FontFamily", p.codeFontFamily)] else []) ++ r.colour p

def tapCalls (p : Profile) (url : String) : List Call :=
  Call.element "Span.GestureRecognizers"
    :: Call.ofTag ⟨"TapGestureRecognizer", [("Command", p.hyperlinkCommand), ("CommandParameter", url)]⟩
    ++ [.close, .close]

def calls (p : Profile) (r : Run) : List Call :=
  Call.ofTag (r.tag p) ++ ((r.target?.map (tapCalls p)).getD []) ++ [.close]

end Run

/-! ### Waiting runs -/

inductive RunItem where
  | run (r : Run)
  | comment (text : String)
  deriving DecidableEq, Repr

namespace RunItem

def isRun : RunItem → Bool
  | .run _ => true
  | .comment _ => false

def calls (p : Profile) : RunItem → List Call
  | .run r => r.calls p
  | .comment text => [.comment text]

end RunItem

structure RunBuffer where
  alignment? : Option Alignment
  /-- Newest first. -/
  waiting : List RunItem

namespace RunBuffer

def empty : RunBuffer := ⟨none, []⟩

instance : EmptyCollection RunBuffer := ⟨empty⟩

def items (b : RunBuffer) : List RunItem := b.waiting.reverse

def append (b : RunBuffer) (r : Run) (alignment : Alignment) : RunBuffer :=
  ⟨b.alignment?.or (some alignment), .run r :: b.waiting⟩

def appendComment (b : RunBuffer) (text : String) : RunBuffer :=
  { b with waiting := .comment text :: b.waiting }

/-- No run is waiting; there may be comments. -/
def hasNoRun (b : RunBuffer) : Bool := !b.waiting.any RunItem.isRun

def label (alignment : Alignment) (content : List Call) : List Call :=
  Call.ofTag ⟨"Label", [("LineBreakMode", "WordWrap"), ("HorizontalTextAlignment", alignment.ofLabel)]⟩
    ++ [.element "Label.FormattedText", .element "FormattedString"]
    ++ content ++ [.close, .close, .close]

/-- Calls that write what is waiting: one label if there is a run, else the bare comments. -/
def calls (p : Profile) (b : RunBuffer) : List Call :=
  let content := b.items.flatMap (RunItem.calls p)
  if b.hasNoRun then content else label (b.alignment?.getD .left) content

end RunBuffer

end XamlDoc
