import XamlDoc.Dialect.Kind
import XamlDoc.Document.Alignment
import XamlDoc.Markup.Call

/-!
# Vocabulary of a dialect

What differs between the dialects: the names of layouts, the values that express spacing, and
some attributes of headers and table cells. One dialect refers to styles of the app by name, the other
writes values of the profile. Everything is data, so that the traversal is the same for both.
-/

namespace XamlDoc

open Markup (Attribute Tag)

inductive Spacing where
  | paragraph (top bottom : Bool)
  | none
  | listMarker (top bottom : Bool)
  | quoteOuter
  | quotePanel
  | definitionTerm (first : Bool)
  | definitionDescription (last : Bool)
  | footnoteNumber
  deriving DecidableEq, Repr

def Spacing.block : Spacing := .paragraph true true

inductive PanelKind where
  | quote
  | insert
  | delete
  deriving DecidableEq, Repr

def Alignment.ofLabel : Alignment → String
  | .left => "Start"
  | .center => "Center"
  | .right => "End"

def Alignment.ofLayout : Alignment → String
  | .left => "Start"
  | .center => "Center"
  | .right => "End"

def staticResource (name : String) : String := "\x7bStaticResource " ++ name ++ "\x7d"

def smallMargins (left right top bottom : Bool) : String :=
  let side (present : Bool) (name : String) := if present then name else ""
  staticResource <|
    if !(left || right || top || bottom) then "NoMargins"
    else if left && right && top && bottom then "SmallMargins"
    else "Small" ++ side left "Left" ++ side right "Right" ++ side top "Top" ++ side bottom "Bottom"
      ++ "Margins"

structure Dialect where
  kind : DialectKind
  profile : Profile

namespace Dialect

def ofKind (kind : DialectKind) : Dialect := ⟨kind, kind.defaultProfile⟩

def xamlNamespace : String := "http://schemas.microsoft.com/winfx/2009/xaml"

def root (d : Dialect) : Tag :=
  match d.kind with
  | .maui =>
    ⟨"VerticalStackLayout", [("xmlns", "http://schemas.microsoft.com/dotnet/2021/maui"),
      ("xmlns:x", xamlNamespace), ("Spacing", "0")]⟩
  | .xamarinForms =>
    ⟨"StackLayout", [("xmlns", "http://xamarin.com/schemas/2014/forms"),
      ("xmlns:x", xamlNamespace), ("Spacing", "0")]⟩

def stack (d : Dialect) : Tag :=
  match d.kind with
  | .maui => ⟨"VerticalStackLayout", []⟩
  | .xamarinForms => ⟨"StackLayout", [("Orientation", "Vertical")]⟩

def tableWrapper? (d : Dialect) : Option Tag :=
  match d.kind with
  | .maui => some ⟨"ScrollView", [("Orientation", "Horizontal")]⟩
  | .xamarinForms => none

def resourceSpacing : Spacing → String
  | .paragraph top bottom => smallMargins false false top bottom
  | .none => smallMargins false false false false
  | .listMarker top bottom => smallMargins false true top bottom
  | .quoteOuter => smallMargins true false true true
  | .quotePanel => smallMargins true true false false
  | .definitionTerm first => smallMargins true true first false
  | .definitionDescription last => smallMargins true false false last
  | .footnoteNumber => smallMargins true true true true

def explicitSpacing (p : Profile) : Spacing → Thickness
  | .paragraph top bottom =>
    ⟨p.paragraphMargins.left, if top then p.paragraphMargins.top else 0,
      p.paragraphMargins.right, if bottom then p.paragraphMargins.bottom else 0⟩
  | .none => .zero
  | .listMarker top bottom =>
    ⟨0, if top then p.paragraphMargins.top else 0, p.listContentMargin,
      if bottom then p.paragraphMargins.bottom else 0⟩
  | .quoteOuter => ⟨p.blockQuoteMargin, p.paragraphMargins.top, 0, p.paragraphMargins.bottom⟩
  | .quotePanel => ⟨p.blockQuotePadding, 0, p.blockQuotePadding, 0⟩
  | .definitionTerm first =>
    ⟨p.paragraphMargins.left, if first then p.paragraphMargins.top else 0,
      p.paragraphMargins.right, 0⟩
  | .definitionDescription last =>
    ⟨p.definitionMargin, 0, 0, if last then p.definitionSeparator else 0⟩
  | .footnoteNumber => ⟨0, p.paragraphMargins.top, p.footnoteSeparator, p.paragraphMargins.bottom⟩

def spacing (d : Dialect) (s : Spacing) : String :=
  match d.kind with
  | .maui => resourceSpacing s
  | .xamarinForms => (explicitSpacing d.profile s).write

def panelBorder (d : Dialect) : PanelKind → String
  | .quote => d.profile.blockQuoteBorderColor
  | .insert => d.profile.insertedBorderColor
  | .delete => d.profile.deletedBorderColor

def lastHeaderStyle : Nat := 9

/-- Font size and colour of a header level; level zero and levels past the lists have none. -/
def headerFont (p : Profile) : Nat → List Attribute
  | 0 => []
  | index + 1 =>
    ((p.headerFontSize[index]?).map fun size => ("FontSize", toString size.toNat)).toList
      ++ ((p.headerColor[index]?).map fun color => ("TextColor", color)).toList

def headerAttributes (d : Dialect) (level : Nat) : List Attribute :=
  match d.kind with
  | .maui => [("Style", staticResource ("Header" ++ toString (min level lastHeaderStyle)))]
  | .xamarinForms => headerFont d.profile level

def tableCellFrame (d : Dialect) (row : Nat) : List Attribute :=
  match d.kind with
  | .maui => [("Style", staticResource (if row % 2 = 0 then "TableCellEven" else "TableCellOdd"))]
  | .xamarinForms =>
    [("Padding", "0,0,0,0"), ("BorderColor", d.profile.tableCellBorderColor)]
      ++ ((d.profile.rowBackground? row).map fun color => ("BackgroundColor", color)).toList

def tableCellContent (d : Dialect) : List Attribute :=
  match d.kind with
  | .maui => [("Style", staticResource "TableCell")]
  | .xamarinForms => [("Padding", d.profile.tableCellPadding.write)]

end Dialect

end XamlDoc
