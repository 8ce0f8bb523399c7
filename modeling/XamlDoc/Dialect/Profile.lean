import XamlDoc.Dialect.Thickness

/-!
# Profiles

The sizes, colours and spacings that a rendering takes from outside the document. Colours are
attribute values and written as they are, so they may be names or markup extensions.
-/

namespace XamlDoc

structure Profile where
  /-- By header level, level one first. -/
  headerFontSize : List UInt32
  /-- By header level, level one first. -/
  headerColor : List String
  paragraphMargins : Thickness
  tableCellPadding : Thickness
  tableCellBorderColor : String
  tableCellBorderThickness : Float
  /-- In turn by row; an empty one sets no background. -/
  tableRowBackgroundColors : List String
  blockQuoteMargin : UInt32
  blockQuotePadding : UInt32
  blockQuoteBorderColor : String
  insertedBorderColor : String
  deletedBorderColor : String
  /-- Gap between a list marker and the content of its item. -/
  listContentMargin : UInt32
  definitionSeparator : UInt32
  definitionMargin : UInt32
  superscriptScale : Float
  superscriptOffset : Int32
  footnoteSeparator : UInt32
  defaultGraphWidth : UInt32
  defaultGraphHeight : UInt32
  codeFontFamily : String
  hyperlinkColor : String
  /-- Invoked with the target when a hyperlink is tapped. -/
  hyperlinkCommand : String
  ruleColor : String
  errorColor : String

namespace Profile

/-- Explicit values throughout. -/
def plain : Profile where
  headerFontSize := [28, 24, 22, 20, 18, 16, 15, 14, 13, 12]
  headerColor := List.replicate 10 "Navy"
  paragraphMargins := ⟨0, 5, 0, 5⟩
  tableCellPadding := ⟨5, 2, 5, 2⟩
  tableCellBorderColor := "Gray"
  tableCellBorderThickness := 0.5
  tableRowBackgroundColors := []
  blockQuoteMargin := 20
  blockQuotePadding := 10
  blockQuoteBorderColor := "Black"
  insertedBorderColor := "Blue"
  deletedBorderColor := "Red"
  listContentMargin := 5
  definitionSeparator := 10
  definitionMargin := 20
  superscriptScale := 0.75
  superscriptOffset := -5
  footnoteSeparator := 2
  defaultGraphWidth := 480
  defaultGraphHeight := 360
  codeFontFamily := "Courier New"
  hyperlinkColor := "\x7bBinding HyperlinkColor\x7d"
  hyperlinkCommand := "\x7bBinding HyperlinkClicked\x7d"
  ruleColor := "Gray"
  errorColor := "Red"

def themed (resource : String) : String :=
  "\x7bAppThemeBinding Light=\x7bStaticResource " ++ resource ++ "Light\x7d, Dark=\x7bStaticResource "
    ++ resource ++ "Dark\x7d\x7d"

/-- Colours from the theme of the app. -/
def ofTheme : Profile :=
  { plain with
    blockQuoteBorderColor := themed "PrimaryForeground"
    insertedBorderColor := themed "InsertedBorder"
    deletedBorderColor := themed "DeletedBorder"
    codeFontFamily := "SpaceGroteskRegular"
    hyperlinkColor := themed "AccentForeground"
    ruleColor := themed "NormalEditPlaceholder" }

def rowBackground? (p : Profile) (row : Nat) : Option String :=
  (p.tableRowBackgroundColors[row % p.tableRowBackgroundColors.length]?).filter (· ≠ "")

end Profile

end XamlDoc
