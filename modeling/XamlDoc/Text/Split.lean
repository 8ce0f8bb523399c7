/-!
# Cutting and joining text

Cutting a list of characters at a separator character, and joining strings with a separator.
The parts of a cut, joined with the separator again, give back the text.
-/

namespace XamlDoc.Text

/-- The parts of `s` between occurrences of `sep`; there is always at least one. -/
def splitAt (sep : Char) : List Char → List (List Char)
  | [] => [[]]
  | c :: r =>
    if c = sep then [] :: splitAt sep r
    else match splitAt sep r with
      | [] => [[c]]
      | part :: parts => (c :: part) :: parts

/-- The text up to the last occurrence of `sep` and the text after it. -/
def splitLast? (sep : Char) (s : List Char) : Option (List Char × List Char) :=
  match s.reverse.span (· ≠ sep) with
  | (_, []) => none
  | (after, _ :: before) => some (before.reverse, after.reverse)

def join (sep : String) : List String → String
  | [] => ""
  | [s] => s
  | s :: t :: r => s ++ sep ++ join sep (t :: r)

def repeated (s : String) : Nat → String
  | 0 => ""
  | n + 1 => s ++ repeated s n

end XamlDoc.Text
