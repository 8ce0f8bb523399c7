import XamlDoc.Markup.Tree
import XamlDoc.Markup.Xml.Cdata
import XamlDoc.Markup.Xml.Comment
import XamlDoc.Markup.Xml.Event
import XamlDoc.Markup.Xml.Sink

/-!
# Writing XML text

The writer whose output is text. A start tag is held back until it is known whether its element has
content: an element closed at once becomes an empty tag. The markup of a finished tree is defined
beside it, without a writer.
-/

namespace XamlDoc.Markup.Xml

structure TextWriter where
  sink : Sink
  layout : Layout
  names : List String
  pending? : Option Tag
  isFinished : Bool

namespace TextWriter

def new (sink : Sink) (layout : Layout) : TextWriter := ⟨sink, layout, [], none, false⟩

abbrev Step := Except WriteError Unit × TextWriter

def Step.andThen (s : Step) (next : TextWriter → Step) : Step :=
  match s with
  | (.ok _, w) => next w
  | (.error e, w) => (.error e, w)

/-- Write one event. The layout moves on even if the sink refuses the text, unless the event is a
CDATA section. -/
def emit (w : TextWriter) (e : Event) : Step :=
  let (lead, layout) := w.layout.place e
  let (fits, sink) := w.sink.write (lead ++ e.markup)
  if fits then (.ok (), { w with sink, layout })
  else
    let layout := match e with
      | .cdata _ => w.layout
      | _ => layout
    (.error (.output Sink.full), { w with sink, layout })

def emitAll : List Event → TextWriter → Step
  | [], w => (.ok (), w)
  | e :: r, w => (w.emit e).andThen (emitAll r)

/-- Write the start tag held back: its element has content. -/
def flush (w : TextWriter) : Step :=
  match w.pending? with
  | none => (.ok (), w)
  | some tag => { w with pending? := none }.emit (.start tag)

def close (w : TextWriter) : Step :=
  match w.names with
  | [] => (.error .noOpenElement, w)
  | name :: names =>
    let w := { w with names }
    match w.pending? with
    | some tag => { w with pending? := none }.emit (.empty tag)
    | none => w.emit (.close name)

def performOpen : Call → TextWriter → Step
  | .element name, w =>
    w.flush.andThen fun w =>
      (.ok (), { w with pending? := some ⟨name, []⟩, names := name :: w.names })
  | .attr name value, w =>
    match w.pending? with
    | none => (.error (.misplacedAttribute name), w)
    | some tag =>
      let tag := { tag with attributes := tag.attributes ++ [(name, value)] }
      (.ok (), { w with pending? := some tag })
  | .text content, w => w.flush.andThen fun w => w.emit (.text content)
  | .raw content, w => w.flush.andThen (emitAll ((cdataSections content).map .cdata))
  | .comment content, w => w.flush.andThen fun w => w.emit (.comment (commentText content))
  | .close, w => w.close

def perform (c : Call) (w : TextWriter) : Step :=
  if w.isFinished then (.error .finished, w) else performOpen c w

instance : Writer TextWriter where
  perform := perform
  depth w := w.names.length

/-- Close up to `n` elements, until a step fails. -/
def closeMany : Nat → TextWriter → Step
  | 0, w => (.ok (), w)
  | n + 1, w => w.close.andThen (closeMany n)

/-- Close every open element and accept no more calls. To finish again changes nothing. -/
def finish (w : TextWriter) : Step :=
  if w.isFinished then (.ok (), w)
  else (closeMany w.names.length w).andThen fun w => (.ok (), { w with isFinished := true })

end TextWriter

/-! ### Markup of a tree -/

mutual

def contentMarkup : Content → String
  | .element name attributes children =>
    let tag : Tag := ⟨name, attributes⟩
    match children with
    | [] => (Event.empty tag).markup
    | c :: r =>
      (Event.start tag).markup ++ (contentMarkup c ++ contentsMarkup r) ++ (Event.close name).markup
  | .text content => (Event.text content).markup
  | .raw content => String.join ((cdataSections content).map fun s => (Event.cdata s).markup)
  | .comment content => (Event.comment (commentText content)).markup

def contentsMarkup : List Content → String
  | [] => ""
  | c :: r => contentMarkup c ++ contentsMarkup r

end

end XamlDoc.Markup.Xml
