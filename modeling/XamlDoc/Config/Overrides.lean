import XamlDoc.Config.Error
import XamlDoc.Data.Decoder

/-!
# Overrides of a profile

Values that replace those of a profile, field by field. A thickness is given by its text, which is
read when the overrides are applied.
-/

namespace XamlDoc

structure Overrides where
  headerFontSize : Option (List UInt32)
  headerColor : Option (List String)
  paragraphMargins : Option String
  tableCellPadding : Option String
  tableCellBorderColor : Option String
  tableCellBorderThickness : Option Float
  tableRowBackgroundColors : Option (List String)
  blockQuoteMargin : Option UInt32
  blockQuotePadding : Option UInt32
  blockQuoteBorderColor : Option String
  insertedBorderColor : Option String
  deletedBorderColor : Option String
  listContentMargin : Option UInt32
  definitionSeparator : Option UInt32
  definitionMargin : Option UInt32
  superscriptScale : Option Float
  superscriptOffset : Option Int32
  footnoteSeparator : Option UInt32
  defaultGraphWidth : Option UInt32
  defaultGraphHeight : Option UInt32
  codeFontFamily : Option String
  hyperlinkColor : Option String
  hyperlinkCommand : Option String
  ruleColor : Option String
  errorColor : Option String

namespace Overrides

def empty : Overrides :=
  ⟨none, none, none, none, none, none, none, none, none, none, none, none, none, none, none, none,
    none, none, none, none, none, none, none, none, none⟩

instance : EmptyCollection Overrides := ⟨empty⟩

/-! ### Reading -/

def fieldNames : List String :=
  ["header_font_size", "header_color", "paragraph_margins", "table_cell_padding",
    "table_cell_border_color", "table_cell_border_thickness", "table_row_background_colors",
    "block_quote_margin", "block_quote_padding", "block_quote_border_color",
    "inserted_border_color", "deleted_border_color", "list_content_margin",
    "definition_separator", "definition_margin", "superscript_scale", "superscript_offset",
    "footnote_separator", "default_graph_width", "default_graph_height", "code_font_family",
    "hyperlink_color", "hyperlink_command", "rule_color", "error_color"]

open Decoder in
def ofFields? (f : Fields) : Option Overrides := do
  return {
    headerFontSize := ← f.optional "header_font_size" (list word32)
    headerColor := ← f.optional "header_color" (list string)
    paragraphMargins := ← f.optional "paragraph_margins" string
    tableCellPadding := ← f.optional "table_cell_padding" string
    tableCellBorderColor := ← f.optional "table_cell_border_color" string
    tableCellBorderThickness := ← f.optional "table_cell_border_thickness" float
    tableRowBackgroundColors := ← f.optional "table_row_background_colors" (list string)
    blockQuoteMargin := ← f.optional "block_quote_margin" word32
    blockQuotePadding := ← f.optional "block_quote_padding" word32
    blockQuoteBorderColor := ← f.optional "block_quote_border_color" string
    insertedBorderColor := ← f.optional "inserted_border_color" string
    deletedBorderColor := ← f.optional "deleted_border_color" string
    listContentMargin := ← f.optional "list_content_margin" word32
    definitionSeparator := ← f.optional "definition_separator" word32
    definitionMargin := ← f.optional "definition_margin" word32
    superscriptScale := ← f.optional "superscript_scale" float
    superscriptOffset := (← f.optional "superscript_offset" signed32).map Int32.ofInt
    footnoteSeparator := ← f.optional "footnote_separator" word32
    defaultGraphWidth := ← f.optional "default_graph_width" word32
    defaultGraphHeight := ← f.optional "default_graph_height" word32
    codeFontFamily := ← f.optional "code_font_family" string
    hyperlinkColor := ← f.optional "hyperlink_color" string
    hyperlinkCommand := ← f.optional "hyperlink_command" string
    ruleColor := ← f.optional "rule_color" string
    errorColor := ← f.optional "error_color" string }

def decode : Decoder Overrides := fun d => (Fields.of? fieldNames d).bind ofFields?

/-! ### Applying -/

def thickness (field : String) (text? : Option String) (current : Thickness) :
    Except InvalidValue Thickness :=
  match text? with
  | none => .ok current
  | some text =>
    match Thickness.read? text with
    | some t => .ok t
    | none => .error (.thickness field text)

def apply (o : Overrides) (p : Profile) : Except InvalidValue Profile := do
  let paragraphMargins ← thickness "profile.paragraph_margins" o.paragraphMargins p.paragraphMargins
  let tableCellPadding ← thickness "profile.table_cell_padding" o.tableCellPadding p.tableCellPadding
  return {
    headerFontSize := o.headerFontSize.getD p.headerFontSize
    headerColor := o.headerColor.getD p.headerColor
    paragraphMargins
    tableCellPadding
    tableCellBorderColor := o.tableCellBorderColor.getD p.tableCellBorderColor
    tableCellBorderThickness := o.tableCellBorderThickness.getD p.tableCellBorderThickness
    tableRowBackgroundColors := o.tableRowBackgroundColors.getD p.tableRowBackgroundColors
    blockQuoteMargin := o.blockQuoteMargin.getD p.blockQuoteMargin
    blockQuotePadding := o.blockQuotePadding.getD p.blockQuotePadding
    blockQuoteBorderColor := o.blockQuoteBorderColor.getD p.blockQuoteBorderColor
    insertedBorderColor := o.insertedBorderColor.getD p.insertedBorderColor
    deletedBorderColor := o.deletedBorderColor.getD p.deletedBorderColor
    listContentMargin := o.listContentMargin.getD p.listContentMargin
    definitionSeparator := o.definitionSeparator.getD p.definitionSeparator
    definitionMargin := o.definitionMargin.getD p.definitionMargin
    superscriptScale := o.superscriptScale.getD p.superscriptScale
    superscriptOffset := o.superscriptOffset.getD p.superscriptOffset
    footnoteSeparator := o.footnoteSeparator.getD p.footnoteSeparator
    defaultGraphWidth := o.defaultGraphWidth.getD p.defaultGraphWidth
    defaultGraphHeight := o.defaultGraphHeight.getD p.defaultGraphHeight
    codeFontFamily := o.codeFontFamily.getD p.codeFontFamily
    hyperlinkColor := o.hyperlinkColor.getD p.hyperlinkColor
    hyperlinkCommand := o.hyperlinkCommand.getD p.hyperlinkCommand
    ruleColor := o.ruleColor.getD p.ruleColor
    errorColor := o.errorColor.getD p.errorColor }

end Overrides

end XamlDoc
