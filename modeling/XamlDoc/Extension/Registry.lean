import XamlDoc.Dialect.Vocabulary
import XamlDoc.Extension.Script
import XamlDoc.Markup.Writing

/-!
# Extensions

Handlers that take over code blocks of a language or media of a content type, a source of emoji
pictures and an evaluator of scripts. A handler is offered a node and may write it, decline, or fail.
Names of languages and content types are compared without regard to upper and lower case, and the
handler registered last for a name is the one that counts.
-/

namespace XamlDoc

open Markup (Call WriteError Writing)

inductive HandlerError where
  | write (e : WriteError)
  | failed (message : String)
  /-- Several failures at once. -/
  | aggregate (messages : List String)
  deriving DecidableEq, Repr

namespace HandlerError

def message : HandlerError → String
  | .write e => "output error: " ++ e.message
  | .failed m => m
  | .aggregate ms => toString ms.length ++ " errors"

def messages : HandlerError → List String
  | .aggregate ms => ms
  | e => [e.message]

end HandlerError

inductive HandlerOutcome where
  | rendered
  /-- The node is left to the rendering without a handler. -/
  | declined
  deriving DecidableEq, Repr

structure Handled where
  result : Except HandlerError HandlerOutcome
  cancels : Bool

structure HandlerContext where
  alignment : Alignment
  dialect : Dialect

abbrev CodeHandler := CodeBlock → HandlerContext → Writing Handled

abbrev MediaHandler := MediaItem → HandlerContext → Writing Handled

/-- The handler that writes any item with an address as an image. -/
def imageHandler : MediaHandler := fun item _ =>
  if item.url = "" then .done ⟨.ok .declined, false⟩
  else (Writing.calls item.image.calls).bind fun
    | .ok _ => .done ⟨.ok .rendered, false⟩
    | .error e => .done ⟨.error (.write e), false⟩

structure EmojiSource where
  supports : Emoji → Bool
  image? : Emoji → Option Image

structure Extensions where
  code : List (String × CodeHandler)
  /-- By content type or its part before the slash, the handler registered last in front. -/
  media : List (String × MediaHandler)
  emojiSource? : Option EmojiSource
  evaluator? : Option Evaluator

namespace Extensions

def none : Extensions := ⟨[], [], Option.none, Option.none⟩

def withCode (x : Extensions) (language : String) (h : CodeHandler) : Extensions :=
  { x with code := (language.toLower, h) :: x.code }

def withMedia (x : Extensions) (contentType : String) (h : MediaHandler) : Extensions :=
  { x with media := (contentType.toLower, h) :: x.media }

def withEmojiSource (x : Extensions) (s : EmojiSource) : Extensions :=
  { x with emojiSource? := some s }

def withEvaluator (x : Extensions) (e : Evaluator) : Extensions := { x with evaluator? := some e }

def standard : Extensions := none.withMedia "image" imageHandler

def codeHandler? (x : Extensions) (language : String) : Option CodeHandler :=
  x.code.lookup language.toLower

def majorType? (contentType : String) : Option String :=
  match contentType.toList.span (· != '/') with
  | (_, []) => Option.none
  | (major, _) => some (String.ofList major)

/-- The handler of a content type, else that of its part before the slash. -/
def mediaHandler? (x : Extensions) (contentType : String) : Option MediaHandler :=
  let type := contentType.toLower
  match x.media.lookup type with
  | some h => some h
  | Option.none => (majorType? type).bind fun major => x.media.lookup major

end Extensions

end XamlDoc
