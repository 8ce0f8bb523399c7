import XamlDoc.Markup.Call

/-!
# Element trees

Written markup as a tree, and the writer that builds it. The tree holds texts as they were
written, neither escaped nor changed.
-/

namespace XamlDoc.Markup

inductive Content where
  | element (name : String) (attributes : List Attribute) (children : List Content)
  | text (content : String)
  | raw (content : String)
  | comment (content : String)

structure Element where
  name : String
  attributes : List Attribute
  children : List Content

namespace Content

def element? : Content → Option Element
  | .element name attributes children => some ⟨name, attributes, children⟩
  | _ => none

def text? : Content → Option String
  | .text t | .raw t => some t
  | _ => none

mutual

/-- The elements named `name` at or below a content, in document order. -/
def named (name : String) : Content → List Element
  | .element n attributes children =>
    let below := allNamed name children
    if n = name then ⟨n, attributes, children⟩ :: below else below
  | .text _ | .raw _ | .comment _ => []

def allNamed (name : String) : List Content → List Element
  | [] => []
  | c :: r => named name c ++ allNamed name r

end

end Content

namespace Element

def toContent (e : Element) : Content := .element e.name e.attributes e.children

def attr? (e : Element) (name : String) : Option String := e.attributes.lookup name

def elements (e : Element) : List Element := e.children.filterMap Content.element?

def child? (e : Element) (name : String) : Option Element :=
  e.elements.find? fun c => c.name = name

def descendants (e : Element) (name : String) : List Element := Content.allNamed name e.children

def text (e : Element) : String := String.join (e.children.filterMap Content.text?)

end Element

/-! ### Building -/

/-- An element that is still open, with its content newest first. -/
structure Frame where
  name : String
  attributes : List Attribute
  content : List Content

def Frame.close (f : Frame) : Content := .element f.name f.attributes f.content.reverse

structure TreeBuilder where
  /-- Open elements, innermost first. -/
  frames : List Frame
  /-- Top-level content closed so far, newest first. -/
  done : List Content

namespace TreeBuilder

def empty : TreeBuilder := ⟨[], []⟩

instance : Inhabited TreeBuilder := ⟨empty⟩

def push (b : TreeBuilder) (c : Content) : TreeBuilder :=
  match b.frames with
  | [] => { b with done := c :: b.done }
  | f :: r => { b with frames := { f with content := c :: f.content } :: r }

def roots (b : TreeBuilder) : List Content := b.done.reverse

def perform : Call → TreeBuilder → Except WriteError Unit × TreeBuilder
  | .element name, b => (.ok (), { b with frames := ⟨name, [], []⟩ :: b.frames })
  | .attr name value, b =>
    match b.frames with
    | [] => (.error (.misplacedAttribute name), b)
    | f :: r =>
      if f.content.isEmpty then
        let f := { f with attributes := f.attributes ++ [(name, value)] }
        (.ok (), { b with frames := f :: r })
      else (.error (.misplacedAttribute name), b)
  | .text t, b => (.ok (), b.push (.text t))
  | .raw t, b => (.ok (), b.push (.raw t))
  | .comment t, b => (.ok (), b.push (.comment t))
  | .close, b =>
    match b.frames with
    | [] => (.error .noOpenElement, b)
    | f :: r => (.ok (), push ⟨r, b.done⟩ f.close)

instance : Writer TreeBuilder where
  perform := perform
  depth b := b.frames.length

/-- Close the frames from the inside out; `inner` is the content that the innermost one still gets. -/
def closeFrames (inner : List Content) : List Frame → List Content → List Content
  | [], done => inner ++ done
  | f :: r, done => closeFrames [Frame.close { f with content := inner ++ f.content }] r done

def finish (b : TreeBuilder) : List Content := (closeFrames [] b.frames b.done).reverse

def elements (b : TreeBuilder) : List Element := b.finish.filterMap Content.element?

end TreeBuilder

end XamlDoc.Markup
