import XamlDoc.Proofs.Inline.Leaves
import XamlDoc.Proofs.Markup.Names
import XamlDoc.Render.Monad

/-!
# Runs as spans

A leaf waits as a run in the style of its marks. The runs that wait are written as one span each, in
their order, whatever else is written around them.
-/

namespace XamlDoc

open Markup (Attribute Call Content Element)

open Markup.Content (allCalls allNamed allNamed_singleton named named_of_ne)

/-! ### Runs -/

namespace Run

def element (p : Profile) (r : Run) : Element :=
  ⟨"Span", (r.tag p).attributes, (r.target?.map (Leaf.tap p)).toList⟩

theorem calls_eq (p : Profile) (r : Run) : r.calls p = (r.element p).toContent.calls := by
  have ht : (r.target?.map (tapCalls p)).getD [] = allCalls (r.target?.map (Leaf.tap p)).toList := by
    cases r.target? <;> rfl
  rw [Run.calls, ht, List.append_assoc]
  rfl

theorem named_element (p : Profile) (r : Run) : named "Span" (r.element p).toContent = [r.element p] := by
  have ht : allNamed "Span" (r.target?.map (Leaf.tap p)).toList = [] := by
    cases r.target? with
    | none => rfl
    | some target => simp [Leaf.tap, allNamed, named]
  rw [element, Element.toContent, named, ht]
  rfl

end Run

/-! ### Leaves -/

/-- The style of texts with some marks. -/
def Mark.style (marks : List Mark) (alignment : Alignment) : Style where
  alignment := alignment
  bold := marks.contains .bold
  italic := marks.contains .italic
  strikeThrough := marks.contains .strikeThrough
  underline := marks.contains .underline
  superscript := marks.contains .superscript
  subscript := marks.contains .subscript
  code := marks.contains .code
  hyperlink := marks.findSome? Mark.target?

namespace Leaf

variable (l : Leaf)

def run : Run := .ofStyle l.text (Mark.style l.marks .left)

theorem fontAttributes_run : l.run.fontAttributes =
    listed "FontAttributes" [("Italic", l.has .italic), ("Bold", l.has .bold)] := by
  show Run.fontAttributes (Run.mk _ (l.has .bold) (l.has .italic) _ _ _ _ _) = _
  cases l.has .bold <;> cases l.has .italic <;> rfl

theorem textDecorations_run : l.run.textDecorations = listed "TextDecorations"
    [("Strikethrough", l.has .strikeThrough), ("Underline", l.has .underline)] := by
  show Run.textDecorations (Run.mk _ _ _ (l.has .strikeThrough) (l.has .underline) _ _ _) = _
  cases l.has .strikeThrough <;> cases l.has .underline <;> rfl

theorem element_run (p : Profile) : l.run.element p = l.span p := by
  have ha : (l.run.tag p).attributes = (l.span p).attributes := by
    show [("Text", l.shown)] ++ l.run.fontAttributes ++ l.run.textDecorations ++ _ ++ _ = _
    rw [fontAttributes_run, textDecorations_run]
    rfl
  rw [Run.element, ha]
  rfl

end Leaf

/-! ### Waiting runs -/

namespace RunItem

def run? : RunItem → Option Run
  | .run r => some r
  | .comment _ => none

def content (p : Profile) : RunItem → Content
  | .run r => (r.element p).toContent
  | .comment text => .comment text

end RunItem

namespace RunBuffer

/-- The runs that wait, in order. -/
def runs (b : RunBuffer) : List Run := b.items.filterMap RunItem.run?

theorem runs_append (b : RunBuffer) (r : Run) (a : Alignment) : (b.append r a).runs = b.runs ++ [r] := by
  simp [runs, items, append, RunItem.run?]

theorem runs_appendComment (b : RunBuffer) (t : String) : (b.appendComment t).runs = b.runs := by
  simp [runs, items, appendComment, RunItem.run?]

/-- What is written for the items that wait. -/
def contents (p : Profile) (b : RunBuffer) : List Content :=
  let content := b.items.map (RunItem.content p)
  if b.hasNoRun then content
  else [.element "Label" [("LineBreakMode", "WordWrap"),
      ("HorizontalTextAlignment", (b.alignment?.getD .left).ofLabel)]
    [.element "Label.FormattedText" [] [.element "FormattedString" [] content]]]

theorem calls_items (p : Profile) (items : List RunItem) :
    items.flatMap (RunItem.calls p) = allCalls (items.map (RunItem.content p)) := by
  induction items with
  | nil => rfl
  | cons i r ih =>
    have hi : i.calls p = (i.content p).calls := by
      cases i with
      | run r => exact r.calls_eq p
      | comment t => rfl
    rw [List.flatMap_cons, ih, hi]
    rfl

theorem calls_eq (p : Profile) (b : RunBuffer) : b.calls p = allCalls (b.contents p) := by
  rw [calls, contents, calls_items]
  split
  · rfl
  · simp [label, allCalls, Markup.Content.calls, Call.ofTag]

theorem spans_items (p : Profile) (items : List RunItem) :
    allNamed "Span" (items.map (RunItem.content p)) =
      (items.filterMap RunItem.run?).map (Run.element p) := by
  induction items with
  | nil => rfl
  | cons i r ih =>
    rw [List.map_cons, allNamed, ih]
    cases i with
    | run r => exact congrArg (· ++ _) (r.named_element p)
    | comment t => rfl

/-- One span for each run that waits. -/
theorem spans_contents (p : Profile) (b : RunBuffer) :
    allNamed "Span" (b.contents p) = b.runs.map (Run.element p) := by
  rw [contents]
  split
  · exact spans_items p b.items
  · rw [allNamed_singleton, named_of_ne (by decide), allNamed_singleton, named_of_ne (by decide),
      allNamed_singleton, named_of_ne (by decide)]
    exact spans_items p b.items

end RunBuffer

end XamlDoc
