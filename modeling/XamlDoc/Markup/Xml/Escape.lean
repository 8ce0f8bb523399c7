/-!
# Escaped text

The five characters with a meaning of their own in markup are written as predefined entities. All
others are written as they are.
-/

namespace XamlDoc.Markup.Xml

/-- The entity of a character that must be escaped. -/
def entity? : Char → Option String
  | '<' => some "&lt;"
  | '>' => some "&gt;"
  | '&' => some "&amp;"
  | '\'' => some "&apos;"
  | '"' => some "&quot;"
  | _ => none

def escapeChar (c : Char) : List Char :=
  match entity? c with
  | some e => e.toList
  | none => [c]

def escapeChars (s : List Char) : List Char := s.flatMap escapeChar

def escape (s : String) : String := String.ofList (escapeChars s.toList)

end XamlDoc.Markup.Xml
