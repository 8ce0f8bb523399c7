/-!
# Alignments

Horizontal alignment of text, and of blocks, which may also follow the margin.
-/

namespace XamlDoc

inductive Alignment where
  | left
  | center
  | right
  deriving DecidableEq, Repr, Inhabited

inductive BlockAlignment where
  | left
  | center
  | right
  | margin
  deriving DecidableEq, Repr

def BlockAlignment.text : BlockAlignment → Alignment
  | .left | .margin => .left
  | .center => .center
  | .right => .right

end XamlDoc
