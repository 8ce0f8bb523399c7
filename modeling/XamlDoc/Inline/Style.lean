import XamlDoc.Document.Alignment

/-!
# Styles

The formatting in effect at a node, handed down from its ancestors.
-/

namespace XamlDoc

structure Style where
  alignment : Alignment
  bold : Bool
  italic : Bool
  strikeThrough : Bool
  underline : Bool
  superscript : Bool
  subscript : Bool
  code : Bool
  hyperlink : Option String
  deriving DecidableEq, Repr

def Style.plain : Style := ⟨.left, false, false, false, false, false, false, false, none⟩

instance : Inhabited Style := ⟨.plain⟩

end XamlDoc
