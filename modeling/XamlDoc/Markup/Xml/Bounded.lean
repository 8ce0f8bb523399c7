import XamlDoc.Markup.Writing
import XamlDoc.Markup.Xml.Text
import XamlDoc.Memory

/-!
# Writing XML text in a memory

The blanks that a line begins with are kept in one piece, which is made longer when a start tag has been written. The
process ends at once where they do not fit into the memory.
-/

namespace XamlDoc.Markup.Xml.TextWriter

def beginsContent : Call → Bool
  | .element _ | .text _ | .raw _ | .comment _ => true
  | .attr _ _ | .close => false

/-- The call has the start tag held back written, and the lines in its element are indented further than fits into the
memory. -/
def overflows [Memory] (w : TextWriter) (c : Call) : Bool :=
  !w.isFinished && beginsContent c && w.pending?.any fun tag => !Memory.fits (w.layout.place (.start tag)).2.indent

/-- The run of a writing, as far as the memory goes. The start tag after which it is too small has been written. -/
def attempt [Memory] {α : Type} : Writing α → TextWriter → Option α × TextWriter
  | .done a, w => (some a, w)
  | .perform c next, w =>
    if w.overflows c then (none, w.flush.2)
    else
      let (answer, w) := perform c w
      attempt (next answer) w
  | .askDepth next, w => attempt (next w.names.length) w

end XamlDoc.Markup.Xml.TextWriter
