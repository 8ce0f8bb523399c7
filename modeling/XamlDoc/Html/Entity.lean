/-!
# HTML text

Escaping of text for HTML, and the characters that entities stand for by name.
-/

namespace XamlDoc.Html

/-- The entity of a character that must be escaped. -/
def entity? : Char → Option String
  | '&' => some "&amp;"
  | '<' => some "&lt;"
  | '>' => some "&gt;"
  | '"' => some "&quot;"
  | '\'' => some "&#x27;"
  | _ => none

def escapeChar (c : Char) : List Char :=
  match entity? c with
  | some e => e.toList
  | none => [c]

def escapeChars (s : List Char) : List Char := s.flatMap escapeChar

def escape (s : String) : String := String.ofList (escapeChars s.toList)

def namedChars : List (String × Char) :=
  [("amp", '&'), ("lt", '<'), ("gt", '>'), ("quot", '"'), ("apos", '\''), ("nbsp", '\u00a0'),
    ("copy", '©'), ("reg", '®'), ("trade", '™'), ("hellip", '…'), ("mdash", '—'), ("ndash", '–'),
    ("lsquo", '‘'), ("rsquo", '’'), ("ldquo", '“'), ("rdquo", '”'), ("laquo", '«'), ("raquo", '»'),
    ("bull", '•'), ("middot", '·'), ("deg", '°'), ("plusmn", '±'), ("times", '×'), ("divide", '÷'),
    ("micro", 'µ'), ("para", '¶'), ("sect", '§'), ("euro", '€'), ("pound", '£'), ("yen", '¥'),
    ("cent", '¢'), ("frac12", '½'), ("frac14", '¼'), ("frac34", '¾'), ("larr", '←'), ("rarr", '→'),
    ("uarr", '↑'), ("darr", '↓'), ("harr", '↔'), ("le", '≤'), ("ge", '≥'), ("ne", '≠'),
    ("infin", '∞'), ("alpha", 'α'), ("beta", 'β'), ("gamma", 'γ'), ("delta", 'δ'), ("pi", 'π'),
    ("sigma", 'σ'), ("omega", 'ω')]

def namedChar? (name : String) : Option Char := namedChars.lookup name

/-- The text that an entity stands for; an unknown one stands for itself. -/
def entityText (name : String) : String :=
  match namedChar? name with
  | some c => c.toString
  | none => "&" ++ name ++ ";"

def charOfCode? (code : UInt32) : Option Char :=
  if code.toNat.isValidChar then some (Char.ofNat code.toNat) else none

end XamlDoc.Html
