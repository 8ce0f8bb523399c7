import XamlDoc.Proofs.Render.Pieces

/-!
# What the dialects say alike

Dialects with one profile differ in the name of their stacks, in the look of elements, which is in attributes of its
own, and in an element around tables that lets them scroll. Without these, the tags that they write are the same.
-/

namespace XamlDoc

open Markup

/-! ### Neutral tags -/

/-- The attributes that are about the look of an element. -/
def lookNames : List String :=
  ["Padding", "Margin", "Style", "Orientation", "xmlns", "FontSize", "TextColor", "BorderColor", "BackgroundColor"]

def neutralName (name : String) : String := if name = "VerticalStackLayout" then "StackLayout" else name

def neutralAttributes (attributes : List Attribute) : List Attribute :=
  attributes.filter fun a => !lookNames.contains a.1

def Markup.Tag.neutral (t : Tag) : Tag := ⟨neutralName t.name, neutralAttributes t.attributes⟩

theorem neutralAttributes_append (a b : List Attribute) :
    neutralAttributes (a ++ b) = neutralAttributes a ++ neutralAttributes b := List.filter_append ..

theorem neutralAttributes_cons_look (name : String) (h : lookNames.contains name = true) (value : String)
    (r : List Attribute) : neutralAttributes ((name, value) :: r) = neutralAttributes r := by
  rw [neutralAttributes, List.filter_cons, h]
  rfl

/-- Attributes whose names are about the look all go. -/
theorem neutralAttributes_look {names : List String} (hn : names.all lookNames.contains = true)
    {a : List Attribute} (ha : (a.map Prod.fst).Sublist names) : neutralAttributes a = [] := by
  refine List.filter_eq_nil_iff.2 fun e he => ?_
  have hm : e.1 ∈ names := ha.subset (List.mem_map_of_mem he)
  rw [List.all_eq_true.1 hn e.1 hm]
  exact Bool.false_ne_true

/-! ### Tags of dialects -/

theorem Layout.stack_name_ne (d : Dialect) : d.stack.name ≠ "ScrollView" := by
  obtain ⟨_ | _, p⟩ := d <;> simp [Dialect.stack]

/-- The tag of a dialect carries no two attributes of one name, lets nothing scroll, and is the same in all dialects
with one profile but for the look. -/
structure Common (f : Dialect → Tag) : Prop where
  distinct (d : Dialect) : DistinctNames (f d).attributes
  stays (d : Dialect) : (f d).name ≠ "ScrollView"
  neutral {d d' : Dialect} : d'.profile = d.profile → (f d').neutral = (f d).neutral

namespace Common

theorem fixed {t : Tag} (ha : DistinctNames t.attributes) (hn : t.name ≠ "ScrollView") : Common fun _ => t :=
  ⟨fun _ => ha, fun _ => hn, fun _ => rfl⟩

theorem padded (spacing : Spacing) (a : Alignment) :
    Common fun d => ⟨"ContentView", ("Padding", d.spacing spacing) :: Layout.alignmentOptions a⟩ where
  distinct d := Layout.padded_distinct _ a
  stays _ := by simp
  neutral _ := by simp only [Tag.neutral, neutralAttributes_cons_look "Padding" rfl]

theorem stack : Common Dialect.stack where
  distinct := Layout.stack_distinct
  stays := Layout.stack_name_ne
  neutral {d d'} _ := by
    obtain ⟨_ | _, p⟩ := d <;> obtain ⟨_ | _, p'⟩ := d' <;> rfl

theorem stackCell (column row : Nat) :
    Common fun d => ⟨d.stack.name, d.stack.attributes ++ Layout.cellPlace column row⟩ where
  distinct d := Layout.stackCell_distinct d column row
  stays d := Layout.stack_name_ne d
  neutral {d d'} _ := by
    obtain ⟨_ | _, p⟩ := d <;> obtain ⟨_ | _, p'⟩ := d' <;>
      simp only [Dialect.stack, Tag.neutral, neutralAttributes_append] <;> rfl

theorem root : Common Dialect.root where
  distinct := Layout.root_distinct
  stays d := by obtain ⟨_ | _, p⟩ := d <;> simp [Dialect.root]
  neutral {d d'} _ := by
    obtain ⟨_ | _, p⟩ := d <;> obtain ⟨_ | _, p'⟩ := d' <;> rfl

theorem panel (kind : PanelKind) :
    Common fun d => ⟨"Frame", [("Padding", d.spacing .quotePanel), ("BorderColor", d.panelBorder kind)]⟩ where
  distinct _ := by simp [DistinctNames]
  stays _ := by simp
  neutral _ := by
    simp only [Tag.neutral, neutralAttributes_cons_look "Padding" rfl, neutralAttributes_cons_look "BorderColor" rfl]

theorem label (a : Alignment) (extra : Profile → List Attribute)
    (he : ∀ p, ((extra p).map Prod.fst).Sublist ["TextColor"]) (text : String) : Common fun d =>
    ⟨"Label", [("LineBreakMode", "WordWrap"), ("HorizontalTextAlignment", a.ofLabel)] ++ extra d.profile
      ++ [("Text", text)]⟩ where
  distinct d := distinctNames_of_sublist (["LineBreakMode", "HorizontalTextAlignment"] ++ ["TextColor"] ++ ["Text"])
    (by decide) (sublist_append (sublist_append (List.Sublist.refl _) (he d.profile)) (List.Sublist.refl _))
  stays _ := by simp
  neutral hp := by rw [hp]

theorem rule : Common fun d => ⟨"BoxView", [("HeightRequest", "1"), ("BackgroundColor", d.profile.ruleColor),
    ("HorizontalOptions", "FillAndExpand"), ("Margin", d.spacing .block)]⟩ where
  distinct _ := by simp [DistinctNames]
  stays _ := by simp
  neutral _ := rfl

theorem htmlLabel (level? : Option Nat) (a : Alignment) : Common fun d =>
    ⟨"Label", [("LineBreakMode", "WordWrap")] ++ (level?.map d.headerAttributes).getD []
      ++ [("HorizontalTextAlignment", a.ofLabel), ("TextType", "Html")]⟩ := by
  have hs (d : Dialect) : (((level?.map d.headerAttributes).getD []).map Prod.fst).Sublist
      ["Style", "FontSize", "TextColor"] := by
    cases level? with
    | none => exact List.nil_sublist _
    | some level => exact Layout.headerAttributes_sublist d level
  refine ⟨fun d => Layout.htmlLabel_distinct a (hs d), fun _ => by simp, fun {d d'} _ => ?_⟩
  have hn : ["Style", "FontSize", "TextColor"].all lookNames.contains = true := by decide
  simp only [Tag.neutral, neutralAttributes_append, neutralAttributes_look hn (hs _)]

theorem listMarker (spacing : Spacing) (row : Nat) :
    Common fun d => ⟨"ContentView", ("Padding", d.spacing spacing) :: Layout.cellPlace 0 row⟩ where
  distinct _ := by simp [DistinctNames, Layout.cellPlace_names]
  stays _ := by simp
  neutral _ := by simp only [Tag.neutral, neutralAttributes_cons_look "Padding" rfl]

theorem footnoteNumber (row : Nat) : Common fun d =>
    ⟨"ContentView", ("Margin", d.spacing .footnoteNumber) :: Layout.cellPlace 0 row
      ++ [("Scale", Text.decimal d.profile.superscriptScale),
        ("TranslationY", toString d.profile.superscriptOffset.toInt)]⟩ where
  distinct _ := by simp [DistinctNames, Layout.cellPlace_names]
  stays _ := by simp
  neutral hp := by
    simp only [Tag.neutral, List.cons_append, neutralAttributes_cons_look "Margin" rfl, hp]

/-- The look of a cell of a table is all that its own attributes are about. -/
theorem cellFrame (row : Nat) {rest : List Attribute} (hr : (rest.map Prod.fst).Sublist ["Grid.ColumnSpan"])
    (column : Nat) : Common fun d => ⟨"Frame", d.tableCellFrame row ++ Layout.cellPlace column row ++ rest⟩ where
  distinct d := Layout.tableCell_distinct d column row rest hr
  stays _ := by simp
  neutral {d d'} _ := by
    have hn : ["Style", "Padding", "BorderColor", "BackgroundColor"].all lookNames.contains = true := by decide
    simp only [Tag.neutral, neutralAttributes_append, neutralAttributes_look hn (Layout.tableCellFrame_sublist _ row)]

theorem cellContent (a : Alignment) :
    Common fun d => ⟨"ContentView", d.tableCellContent ++ Layout.alignmentOptions a⟩ where
  distinct d := Layout.tableCellContent_distinct d a
  stays _ := by simp
  neutral {d d'} _ := by
    have hn : ["Style", "Padding"].all lookNames.contains = true := by decide
    simp only [Tag.neutral, neutralAttributes_append, neutralAttributes_look hn (Layout.tableCellContent_sublist _)]

/-- The element around the caption and the grid of a table. -/
theorem tableFrame (id : Option String) : Common fun d =>
    ⟨"ContentView", ("Padding", d.spacing .block) :: (id.map fun i => ("AutomationId", i)).toList⟩ where
  distinct d := distinctNames_of_sublist ["Padding", "AutomationId"] (by decide)
    ((sublist_option id "AutomationId" fun i => i).cons_cons "Padding")
  stays _ := by simp
  neutral _ := by simp only [Tag.neutral, neutralAttributes_cons_look "Padding" rfl]

end Common

end XamlDoc
