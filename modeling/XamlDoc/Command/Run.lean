import XamlDoc.Command.Arguments
import XamlDoc.Config.Load
import XamlDoc.Data.Json.Reader
import XamlDoc.Document.Decoding
import XamlDoc.Markup.Xml.Bounded
import XamlDoc.Render.Document

/-!
# Running the command

The configuration is loaded first, then the document is read, and only then the output file is made. Without
an output file the text goes to standard output, with a line break after it. A process that the memory is too small for
ends at once: what it has written stays in the output file.
-/

namespace XamlDoc.Command

open Markup (Writing)
open Markup.Xml (Layout Sink TextWriter)

inductive Failure where
  | config (e : ConfigError)
  | file
  | document
  | render (e : RenderError)
  | write (e : Markup.WriteError)
  deriving DecidableEq, Repr

def Failure.message : Failure → String
  | .config e => (e.message?).getD "the configuration cannot be read"
  | .file => "a file cannot be read or made"
  | .document => "invalid document"
  | .render e => e.message
  | .write e => e.message

inductive Outcome where
  | usage
  | failed (f : Failure)
  | printed (text : String)
  | stored (notice : String)
  deriving DecidableEq, Repr

def Outcome.code : Outcome → Nat
  | .usage => 2
  | .failed (.render .tooDeep) => 101
  | .failed _ => 1
  | .printed _ | .stored _ => 0

/-! ### Rendering -/

def layout (c : Config) : Layout := if c.indent = 0 then .compact else .indented c.indent

/-- Errors are handed on when all elements are closed, but at a bound of the machine the process ends as it is. -/
def ending : Except RenderError (Unit × Progress) → Writing (Except RenderError Unit)
  | .error .tooDeep => pure (.error .tooDeep)
  | result => unwound 0 result

/-- The rendering of a document from the beginning of a text. -/
def process [Memory] (setting : Setting) (d : Document) (inclusion : Bool) : Writing (Except RenderError Unit) :=
  Writing.bind (Render.document setting 0 d inclusion ⟨.start none, ∅⟩) ending

/-- The text of a document as far as it is written, and how it ends. -/
def rendering [Memory] (c : Config) (d : Document) : Except Failure Unit × String :=
  match c.profile with
  | .error v => (.error (.config (.invalid v)), "")
  | .ok profile =>
    let setting : Setting := ⟨⟨c.dialect, profile⟩, .standard⟩
    match TextWriter.attempt (process setting d c.bodyOnly) (TextWriter.new .unlimited (layout c)) with
    | (some (.ok _), w) => (w.finish.1.mapError .write, w.finish.2.sink.text)
    | (some (.error e), w) => (.error (.render e), w.sink.text)
    | (none, w) => (.error (.render .tooDeep), w.sink.text)

def documentOf (bytes? : Option (List UInt8)) : Except Failure Document :=
  match bytes?.bind Text.ofBytes? with
  | none => .error .file
  | some text =>
    match (Data.Json.read? text).bind Document.decode with
    | none => .error .document
    | some d => .ok d

/-! ### Running -/

abbrev Action := ExceptT Failure Access

def loadConfig (r : RenderRequest) : Action Config :=
  ExceptT.mk <| (Config.load r.config? ⟨r.dialect?, if r.bodyOnly then some true else none, r.indent?⟩).bind
    fun result => .done (result.mapError .config)

def readDocument (input : String) : Action Document :=
  ExceptT.mk <|
    if input = "-" then .readInput fun bytes => .done (documentOf (some bytes))
    else .read (.given input) fun bytes? => .done (documentOf bytes?)

def create (path : String) : Action Unit :=
  ExceptT.mk <| .create path fun
    | true => .done (.ok ())
    | false => .done (.error .file)

def write (path text : String) : Action Unit := ExceptT.mk (.write path text fun _ => .done (.ok ()))

def RenderRequest.run (r : RenderRequest) : Action Outcome := do
  let config ← loadConfig r
  let document ← readDocument r.input
  match r.output? with
  | none =>
    let (ended, text) := @rendering .addressable config document
    ExceptT.mk (.done ended)
    return .printed (text ++ "\n")
  | some path =>
    create path
    let (ended, text) := @rendering .addressable config document
    write path text
    ExceptT.mk (.done ended)
    return .stored ("Rendered " ++ config.dialect.name ++ " to " ++ path)

def version : String := "xamd 0.3.0"

def run (arguments : List String) : Access Outcome :=
  match Invocation.ofArguments? arguments with
  | none => .done .usage
  | some .version => .done (.printed (version ++ "\n"))
  | some (.render r) => r.run.run.bind fun
    | .ok outcome => .done outcome
    | .error f => .done (.failed f)

end XamlDoc.Command
