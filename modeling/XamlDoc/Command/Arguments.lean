import XamlDoc.Dialect.Kind
import XamlDoc.Text.Scan

/-!
# Arguments of the command line

The command `render` takes one document and options in any order. An option has a long name, some
have a letter too; a value stands in the next argument or in the same one, after an equals sign or, for a
letter, right behind it. Letters of options without a value may be written together. No option may be given
twice, and after `--` all arguments are documents.
-/

namespace XamlDoc.Command

inductive OptionName where
  | dialect
  | config
  | output
  | bodyOnly
  | indent
  | verbose
  deriving DecidableEq

namespace OptionName

def takesValue : OptionName → Bool
  | .dialect | .config | .output | .indent => true
  | .bodyOnly | .verbose => false

def ofLong? : String → Option OptionName
  | "dialect" => some .dialect
  | "config" => some .config
  | "output" => some .output
  | "body-only" => some .bodyOnly
  | "indent" => some .indent
  | "verbose" => some .verbose
  | _ => none

def ofLetter? : Char → Option OptionName
  | 'd' => some .dialect
  | 'c' => some .config
  | 'o' => some .output
  | 'v' => some .verbose
  | _ => none

end OptionName

/-! ### Words -/

inductive Word where
  | operand (value : String)
  | flag (name : OptionName)
  | option (name : OptionName) (value : String)

/-- An argument that can be a value although it is one of its own. -/
def isValue (arg : String) : Bool := !arg.startsWith "-" || arg = "-"

/-- The words of an argument, and the option whose value is the next argument. -/
abbrev Parsed := List Word × Option OptionName

def long? (arg : List Char) : Option Parsed :=
  let (name, value) := arg.span (· != '=')
  (OptionName.ofLong? (String.ofList name)).bind fun name =>
    match name.takesValue, value with
    | true, _ :: value => some ([.option name (String.ofList value)], none)
    | true, [] => some ([], some name)
    | false, [] => some ([.flag name], none)
    | false, _ :: _ => none

def letters? : List Char → Option Parsed
  | [] => some ([], none)
  | c :: r =>
    (OptionName.ofLetter? c).bind fun name =>
      if name.takesValue then
        match r with
        | [] => some ([], some name)
        | '=' :: value => some ([.option name (String.ofList value)], none)
        | value => some ([.option name (String.ofList value)], none)
      else (letters? r).map fun (words, open?) => (.flag name :: words, open?)

def argument? (arg : String) : Option Parsed :=
  match arg.toList with
  | '-' :: '-' :: r => long? r
  | '-' :: c :: r => letters? (c :: r)
  | _ => some ([.operand arg], none)

/-- The words of some arguments. With `pending?`, the first argument is the value of an option. -/
def words? (pending? : Option OptionName) : List String → Option (List Word)
  | [] => if pending?.isSome then none else some []
  | arg :: r =>
    match pending? with
    | some name =>
      if isValue arg then (words? none r).map (.option name arg :: ·) else none
    | none =>
      if arg = "--" then some (r.map .operand)
      else (argument? arg).bind fun (words, pending?) => (words? pending? r).map (words ++ ·)

/-! ### Meaning -/

structure RenderRequest where
  /-- Path of the document; `-` is standard input. -/
  input : String
  dialect? : Option DialectKind
  config? : Option String
  output? : Option String
  bodyOnly : Bool
  indent? : Option Nat
  verbose : Bool

def single? {α : Type} : List α → Option α
  | [a] => some a
  | _ => none

def operands (words : List Word) : List String :=
  words.filterMap fun | .operand v => some v | _ => none

/-- The values given for an option; a flag has an empty value. -/
def given (name : OptionName) (words : List Word) : List String :=
  words.filterMap fun
    | .option n v => if n = name then some v else none
    | .flag n => if n = name then some "" else none
    | .operand _ => none

def once? {α : Type} (name : OptionName) (meaning : String → Option α) (words : List Word) :
    Option (Option α) :=
  match given name words with
  | [] => some none
  | [v] => (meaning v).map some
  | _ => none

def flag? (name : OptionName) (words : List Word) : Option Bool :=
  (once? name some words).map Option.isSome

def path? (s : String) : Option String := if s = "" then none else some s

def RenderRequest.ofWords? (words : List Word) : Option RenderRequest := do
  return {
    input := ← (single? (operands words)).bind path?
    dialect? := ← once? .dialect DialectKind.ofName? words
    config? := ← once? .config path? words
    output? := ← once? .output path? words
    bodyOnly := ← flag? .bodyOnly words
    indent? := ← once? .indent (fun v => Text.numberBelow? UInt64.size v.toList) words
    verbose := ← flag? .verbose words }

def usage : String :=
  "usage: xamd render [--dialect NAME] [--config FILE] [--output FILE] [--body-only] "
    ++ "[--indent N] [--verbose] INPUT"

inductive Invocation where
  | version
  | render (r : RenderRequest)

def Invocation.ofArguments? : List String → Option Invocation
  | [] => none
  | "render" :: r => ((words? none r).bind RenderRequest.ofWords?).map .render
  | arg :: _ => if arg = "--version" || arg.startsWith "-V" then some .version else none

end XamlDoc.Command
