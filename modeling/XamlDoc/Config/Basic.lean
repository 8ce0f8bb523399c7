import XamlDoc.Config.Overrides

/-!
# Configurations

How documents are to be rendered: the dialect, the layout of the output, and the overrides of the
dialect's profile. A configuration comes from settings written in a file, which are checked, and from
choices made at the call, which replace single values.
-/

namespace XamlDoc

structure Config where
  dialect : DialectKind
  /-- Spaces for each open element; zero writes everything on one line. -/
  indent : Nat
  bodyOnly : Bool
  overrides : Overrides
  source? : Option FileName

namespace Config

def standard : Config := ⟨.maui, 2, false, ∅, none⟩

def profile (c : Config) : Except InvalidValue Profile := c.overrides.apply c.dialect.defaultProfile

/-! ### Validity -/

def indentLimit : Nat := 16

def require (condition : Bool) (otherwise : InvalidValue) : Except InvalidValue Unit :=
  if condition then .ok () else .error otherwise

def validate (c : Config) : Except InvalidValue Unit := do
  let o := c.overrides
  require (c.indent ≤ indentLimit) (.indent indentLimit)
  require (!o.headerFontSize.any List.isEmpty) (.empty "profile.header_font_size")
  require (!o.headerColor.any List.isEmpty) (.empty "profile.header_color")
  require (o.defaultGraphWidth ≠ some 0) (.notPositive "profile.default_graph_width")
  require (o.defaultGraphHeight ≠ some 0) (.notPositive "profile.default_graph_height")
  require (!o.superscriptScale.any (· ≤ 0)) (.notPositive "profile.superscript_scale")
  require (!o.tableCellBorderThickness.any (· < 0))
    (.negative "profile.table_cell_border_thickness")
  let _ ← c.profile

/-! ### Choices -/

structure Choices where
  dialect? : Option DialectKind
  bodyOnly? : Option Bool
  indent? : Option Nat

def choose (c : Config) (choices : Choices) : Config :=
  { c with
    dialect := choices.dialect?.getD c.dialect
    bodyOnly := choices.bodyOnly?.getD c.bodyOnly
    indent := choices.indent?.getD c.indent }

end Config

/-! ### Settings -/

structure Settings where
  dialect? : Option String
  indent : Nat
  bodyOnly : Bool
  overrides : Overrides

namespace Settings

open Decoder in
def decodeOutput : Decoder (Nat × Bool) := fun d => do
  let f ← Fields.ofLeading? ["indent", "body_only"] d
  return (← f.withDefault "indent" Config.standard.indent natural,
    ← f.withDefault "body_only" Config.standard.bodyOnly boolean)

def decodeProfile : Decoder Overrides := fun d =>
  (Fields.ofLeading? Overrides.fieldNames d).bind Overrides.ofFields?

open Decoder in
def decode : Decoder Settings := fun d => do
  let f ← Fields.ofLeading? ["dialect", "output", "profile"] d
  let (indent, bodyOnly) ←
    f.withDefault "output" (Config.standard.indent, Config.standard.bodyOnly) decodeOutput
  return {
    dialect? := ← f.optional "dialect" string
    indent
    bodyOnly
    overrides := ← f.withDefault "profile" ∅ decodeProfile }

def toConfig (s : Settings) (source : FileName) : Except InvalidValue Config := do
  let dialect ← match s.dialect? with
    | none => .ok Config.standard.dialect
    | some name =>
      match DialectKind.ofName? name with
      | some kind => .ok kind
      | none => .error (.dialect name)
  let config : Config := ⟨dialect, s.indent, s.bodyOnly, s.overrides, some source⟩
  config.validate
  return config

end Settings

end XamlDoc
