import XamlDoc.Document.Node
import XamlDoc.Render.Monad

/-!
# Layouts

The blocks of a document as elements of a dialect, over the renderings of their parts: padded containers,
labels, grids, lists, definitions, panels, tables and footnotes. A grid declares all its rows and
columns before its first cell.
-/

namespace XamlDoc

open Markup (Attribute Call Tag)

/-- The rendering of a part of a block, and what its place in the block depends on. -/
structure Part where
  margins : Margins
  isInline : Bool
  render : Style → Rendering Unit

namespace Layout

open Rendering

variable (d : Dialect)

/-! ### Containers and labels -/

/-- Options of a container; left is the default. -/
def alignmentOptions : Alignment → List Attribute
  | .left => []
  | a => [("HorizontalOptions", a.ofLayout)]

def padded (spacing : Spacing) (alignment : Alignment) (content : Rendering Unit) :
    Rendering Unit :=
  element ⟨"ContentView", ("Padding", d.spacing spacing) :: alignmentOptions alignment⟩ content

def flushed (content : Rendering Unit) : Rendering Unit := do
  content
  flush d.profile

def stacked (content : Rendering Unit) : Rendering Unit := element d.stack (flushed d content)

def label (alignment : Alignment) (extra : List Attribute) (text : String) : Rendering Unit :=
  leaf ⟨"Label", [("LineBreakMode", "WordWrap"), ("HorizontalTextAlignment", alignment.ofLabel)]
    ++ extra ++ [("Text", text)]⟩

def textBlock (alignment : Alignment) (text : String) : Rendering Unit :=
  padded d .block alignment (label alignment [] text)

def errorBlock (alignment : Alignment) (message : String) : Rendering Unit :=
  padded d .block alignment
    (label alignment [("TextColor", d.profile.errorColor)] message)

def htmlBlock (alignment : Alignment) (extra : List Attribute) (html : String) :
    Rendering Unit :=
  padded d .block alignment <|
    element ⟨"Label", [("LineBreakMode", "WordWrap")] ++ extra
      ++ [("HorizontalTextAlignment", alignment.ofLabel), ("TextType", "Html")]⟩ (emit [.raw html])

def rule : Rendering Unit :=
  leaf ⟨"BoxView", [("HeightRequest", "1"), ("BackgroundColor", d.profile.ruleColor),
    ("HorizontalOptions", "FillAndExpand"), ("Margin", d.spacing .block)]⟩

/-! ### Grids -/

def definition (name key value : String) : List Call :=
  Call.ofTag ⟨name, [(key, value)]⟩ ++ [.close]

/-- The columns and rows of a grid; every row is as high as its content. -/
def gridDefinitions (columns : List String) (rows : Nat) : List Call :=
  [.element "Grid.ColumnDefinitions"]
    ++ columns.flatMap (definition "ColumnDefinition" "Width") ++ [.close]
    ++ [.element "Grid.RowDefinitions"]
    ++ (List.replicate rows (definition "RowDefinition" "Height" "Auto")).flatten ++ [.close]

def gridStart (spacing : String) (columns : List String) (rows : Nat) : List Call :=
  Call.ofTag ⟨"Grid", [("RowSpacing", spacing), ("ColumnSpacing", spacing)]⟩
    ++ gridDefinitions columns rows

def grid (spacing : String) (columns : List String) (rows : Nat) (cells : Rendering Unit) :
    Rendering Unit := do
  emit (gridStart spacing columns rows)
  cells
  emit [.close]

def cellPlace (column row : Nat) : List Attribute :=
  [("Grid.Column", toString column), ("Grid.Row", toString row)]

def inOrder : List (Rendering Unit) → Rendering Unit
  | [] => pure ()
  | m :: r => do
    m
    inOrder r

def inRows {α : Type} (render : Nat → α → Rendering Unit) (items : List α) : Rendering Unit :=
  inOrder (items.mapIdx render)

/-! ### Lists -/

structure Marked where
  marker : String
  part : Part

def listRow (s : Style) (row : Nat) (item : Marked) : Rendering Unit := do
  let padding := d.spacing (.listMarker item.part.margins.top item.part.margins.bottom)
  element ⟨"ContentView", ("Padding", padding) :: cellPlace 0 row⟩
    (leaf ⟨"Label", if item.marker = "" then [] else [("Text", item.marker)]⟩)
  element ⟨d.stack.name, d.stack.attributes ++ cellPlace 1 row⟩ (flushed d (item.part.render s))

def list (s : Style) (items : List Marked) : Rendering Unit :=
  padded d .block s.alignment <|
    grid "0" ["Auto", "*"] items.length (inRows (listRow d s) items)

/-- The ordinals of items, of which some restart the numbering. Counting stops at the greatest
number there is. -/
def ordinals : Nat → List (Option UInt32) → List Nat
  | _, [] => []
  | last, number? :: r =>
    let n := (number?.map UInt32.toNat).getD (min (last + 1) (2 ^ 32 - 1))
    n :: ordinals n r

def bullets (items : List Part) : List Marked := items.map fun part => ⟨"•", part⟩

def numbers (items : List (NumberedItem Part)) : List Marked :=
  List.zipWith (fun n (item : NumberedItem Part) => ⟨toString n ++ ".", item.child⟩)
    (ordinals 0 (items.map NumberedItem.number)) items

def checks (items : List (TaskItem Part)) : List Marked :=
  items.map fun item => ⟨if item.checked then "✓" else "", item.child⟩

/-! ### Definitions -/

def term (s : Style) (index : Nat) (part : Part) : Rendering Unit :=
  padded d (.definitionTerm (index == 0)) s.alignment <|
    flushed d (part.render { s with bold := true })

/-- A part in a container: spans stand in it directly, blocks in a stack. -/
def contained (part : Part) (s : Style) : Rendering Unit :=
  if part.isInline then flushed d (part.render s) else stacked d (part.render s)

def description (s : Style) (last index : Nat) (part : Part) : Rendering Unit :=
  padded d (.definitionDescription (index == last)) s.alignment (contained d part s)

def definitionGroup (s : Style) (g : DefinitionGroup Part) : Rendering Unit := do
  inRows (term d s) g.terms
  inRows (description d s (g.descriptions.length - 1)) g.descriptions

def definitionList (s : Style) (groups : List (DefinitionGroup Part)) : Rendering Unit :=
  inOrder (groups.map (definitionGroup d s))

/-! ### Panels and code -/

def panel (kind : PanelKind) (s : Style) (content : Rendering Unit) : Rendering Unit :=
  padded d .quoteOuter s.alignment <|
    element ⟨"Frame", [("Padding", d.spacing .quotePanel), ("BorderColor", d.panelBorder kind)]⟩
      (stacked d content)

def codeRow (s : Style) (row : String) : Rendering Unit :=
  leaf ⟨"Label", [("LineBreakMode", "NoWrap"), ("HorizontalTextAlignment", s.alignment.ofLabel),
    ("FontFamily", d.profile.codeFontFamily), ("Text", row)]⟩

def codeRows (s : Style) (rows : List String) : Rendering Unit :=
  padded d .block s.alignment (element d.stack (inOrder (rows.map (codeRow d s))))

/-! ### Tables -/

def placedCell (t : Table Part) (s : Style) (row : Nat) (p : Placement Part) : Rendering Unit :=
  let alignment := ((p.cell?.bind Cell.alignment).getD (t.columnAlignment p.column))
  let span := if p.span > 1 then [("Grid.ColumnSpan", toString p.span)] else []
  element ⟨"Frame", d.tableCellFrame row ++ cellPlace p.column row ++ span⟩ <|
    element ⟨"ContentView", d.tableCellContent ++ alignmentOptions alignment⟩ <|
      match p.cell? with
      | some cell => contained d cell.content { s with alignment }
      | none => pure ()

def tableRow [Memory] (t : Table Part) (row : Nat) (cells : Row Part) : Rendering Unit :=
  let s : Style := { Style.plain with bold := row < t.headers.length }
  match cells.columnSpans? t.columns.toNat with
  | some placements => inOrder (placements.map (placedCell d t s row))
  | none => throw .tooDeep

/-- The caption in a stack, which the grid is in as well. -/
def captionStart (caption : String) : List Call :=
  Call.ofTag d.stack
    ++ Call.ofTag ⟨"Label", [("LineBreakMode", "WordWrap"), ("FontAttributes", "Italic"),
      ("Text", caption)]⟩ ++ [.close]

/-- The start of a table, up to its grid. -/
def tableFrame (t : Table Part) : List Call :=
  ((d.tableWrapper?.map Call.ofTag).getD [])
    ++ Call.ofTag ⟨"ContentView", ("Padding", d.spacing .block)
      :: (t.id.map fun i => ("AutomationId", i)).toList⟩
    ++ (t.caption.map (captionStart d)).getD []

/-- The widths of the columns, if the list of them fits into the memory, at 16 bytes each. -/
def columnWidths? [Memory] (columns : Nat) : Option (List String) :=
  if Memory.fits (16 * columns) then some (List.replicate columns "Auto") else none

/-- The grid of a table up to its first cell. Rows overlap by the width of the border. -/
def startGrid [Memory] (t : Table Part) : Rendering Unit :=
  match columnWidths? t.columns.toNat with
  | some widths => emit (gridStart "-2" widths t.allRows.length)
  | none => throw .tooDeep

/-- A table. How many elements are around its rows depends on the dialect and the caption, so the
end closes down to the depth at the start. -/
def table [Memory] (t : Table Part) : Rendering Unit := do
  let depth ← ofQuiet Markup.Writing.depth
  emit (tableFrame d t)
  startGrid t
  inRows (tableRow d t) t.allRows
  ofWriting (Markup.Writing.closeTo depth)

/-! ### Footnotes -/

def footnoteRow (row : Nat) (content : Rendering Unit) : Rendering Unit := do
  element ⟨"ContentView", ("Margin", d.spacing .footnoteNumber) :: cellPlace 0 row
      ++ [("Scale", Text.decimal d.profile.superscriptScale),
        ("TranslationY", toString d.profile.superscriptOffset.toInt)]⟩
    (leaf ⟨"Label", [("Text", toString (row + 1))]⟩)
  element ⟨"ContentView", cellPlace 1 row⟩ (stacked d content)

def footnotes (contents : List (Rendering Unit)) : Rendering Unit := do
  rule d
  grid "0" ["Auto", "*"] contents.length (inRows (footnoteRow d) contents)

end Layout

end XamlDoc
