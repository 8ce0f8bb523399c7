/-!
# CDATA sections

Verbatim content is written in CDATA sections, none of which may contain the terminator `]]>`.
Content that does is cut inside each terminator, between `]]` and `>`.
-/

namespace XamlDoc.Markup.Xml

/-- The parts of a text between occurrences of `]]>`, taken from left to right. -/
def terminatorParts : List Char → List (List Char)
  | [] => [[]]
  | ']' :: ']' :: '>' :: r => [] :: terminatorParts r
  | c :: r =>
    match terminatorParts r with
    | [] => [[c]]
    | part :: parts => (c :: part) :: parts

/-- Give each part back its share of the terminators around it: `>` from the one before, `]]` of
the one after. -/
def shareTerminators : List (List Char) → List (List Char)
  | [] => []
  | [part] => [part]
  | part :: next :: r =>
    (part ++ [']', ']']) :: match shareTerminators (next :: r) with
      | [] => []
      | s :: ss => ('>' :: s) :: ss

/-- The sections of a verbatim text; there is always at least one. -/
def cdataChars (s : List Char) : List (List Char) := shareTerminators (terminatorParts s)

def cdataSections (s : String) : List String := (cdataChars s.toList).map String.ofList

end XamlDoc.Markup.Xml
