import XamlDoc.Proofs.Markup.Names
import XamlDoc.Render.Layout

/-!
# The pieces of a rendering

The tags that renderings write carry no two attributes of the same name, and the calls that are made
at once, for waiting runs, images and the definitions of a grid, write whole contents.
-/

namespace XamlDoc

open Markup

/-! ### Attributes -/

/-- Attributes whose names are taken in order from distinct ones are distinct. -/
theorem distinctNames_of_sublist (names : List String) {a : List Attribute} (hn : names.Nodup)
    (h : (a.map Prod.fst).Sublist names) : DistinctNames a := hn.sublist h

theorem sublist_append {a b : List Attribute} {m n : List String} (ha : (a.map Prod.fst).Sublist m)
    (hb : (b.map Prod.fst).Sublist n) : ((a ++ b).map Prod.fst).Sublist (m ++ n) := by
  rw [List.map_append]
  exact ha.append hb

theorem sublist_option {α : Type} (o : Option α) (name : String) (f : α → String) :
    ((o.map fun a => (name, f a)).toList.map Prod.fst).Sublist [name] := by
  cases o with
  | none => exact List.nil_sublist _
  | some a => exact List.Sublist.refl _

namespace Layout

theorem alignmentOptions_sublist (a : Alignment) :
    ((alignmentOptions a).map Prod.fst).Sublist ["HorizontalOptions"] := by
  cases a with
  | left => exact List.nil_sublist _
  | center => exact List.Sublist.refl _
  | right => exact List.Sublist.refl _

theorem cellPlace_names (column row : Nat) :
    (cellPlace column row).map Prod.fst = ["Grid.Column", "Grid.Row"] := rfl

theorem padded_distinct (padding : String) (a : Alignment) :
    DistinctNames (("Padding", padding) :: alignmentOptions a) :=
  distinctNames_of_sublist ["Padding", "HorizontalOptions"] (by decide)
    ((alignmentOptions_sublist a).cons_cons "Padding")

theorem stack_distinct (d : Dialect) : DistinctNames d.stack.attributes := by
  rcases d with ⟨_ | _, p⟩ <;> simp [DistinctNames, Dialect.stack]

theorem stackCell_distinct (d : Dialect) (column row : Nat) :
    DistinctNames (d.stack.attributes ++ cellPlace column row) := by
  rcases d with ⟨_ | _, p⟩ <;> simp [DistinctNames, Dialect.stack, cellPlace_names]

theorem root_distinct (d : Dialect) : DistinctNames d.root.attributes := by
  rcases d with ⟨_ | _, p⟩ <;> simp [DistinctNames, Dialect.root]

theorem headerFont_sublist (p : Profile) (level : Nat) :
    ((Dialect.headerFont p level).map Prod.fst).Sublist ["FontSize", "TextColor"] := by
  cases level with
  | zero => exact List.nil_sublist _
  | succ index => exact sublist_append (sublist_option _ _ _) (sublist_option _ _ _)

theorem headerAttributes_sublist (d : Dialect) (level : Nat) :
    ((d.headerAttributes level).map Prod.fst).Sublist ["Style", "FontSize", "TextColor"] := by
  rcases d with ⟨_ | _, p⟩
  · exact List.sublist_append_left ["Style"] _
  · exact (headerFont_sublist p level).cons "Style"

theorem noAttributes_sublist (l : List String) :
    (([] : List Attribute).map Prod.fst).Sublist l := List.nil_sublist l

theorem htmlLabel_distinct {extra : List Attribute} (a : Alignment)
    (h : (extra.map Prod.fst).Sublist ["Style", "FontSize", "TextColor"]) :
    DistinctNames ([("LineBreakMode", "WordWrap")] ++ extra
      ++ [("HorizontalTextAlignment", a.ofLabel), ("TextType", "Html")]) :=
  distinctNames_of_sublist (["LineBreakMode"] ++ ["Style", "FontSize", "TextColor"]
      ++ ["HorizontalTextAlignment", "TextType"]) (by decide)
    (sublist_append (sublist_append (List.Sublist.refl _) h) (List.Sublist.refl _))

theorem tableCellFrame_sublist (d : Dialect) (row : Nat) :
    ((d.tableCellFrame row).map Prod.fst).Sublist
      ["Style", "Padding", "BorderColor", "BackgroundColor"] := by
  rcases d with ⟨_ | _, p⟩
  · exact List.sublist_append_left ["Style"] _
  · exact (sublist_append (m := ["Padding", "BorderColor"]) (List.Sublist.refl _)
      (sublist_option _ _ _)).cons "Style"

theorem tableCell_distinct (d : Dialect) (column row : Nat) (span : List Attribute)
    (h : (span.map Prod.fst).Sublist ["Grid.ColumnSpan"]) :
    DistinctNames (d.tableCellFrame row ++ cellPlace column row ++ span) :=
  distinctNames_of_sublist (["Style", "Padding", "BorderColor", "BackgroundColor"]
      ++ ["Grid.Column", "Grid.Row"] ++ ["Grid.ColumnSpan"]) (by decide)
    (sublist_append (sublist_append (tableCellFrame_sublist d row) (List.Sublist.refl _)) h)

theorem tableCellContent_sublist (d : Dialect) :
    (d.tableCellContent.map Prod.fst).Sublist ["Style", "Padding"] := by
  rcases d with ⟨_ | _, p⟩
  · exact List.sublist_append_left ["Style"] _
  · exact (List.Sublist.refl ["Padding"]).cons "Style"

theorem tableCellContent_distinct (d : Dialect) (a : Alignment) :
    DistinctNames (d.tableCellContent ++ alignmentOptions a) :=
  distinctNames_of_sublist (["Style", "Padding"] ++ ["HorizontalOptions"]) (by decide)
    (sublist_append (tableCellContent_sublist d) (alignmentOptions_sublist a))

end Layout

/-! ### Names of elements -/

/-- Only runs are written as spans. -/
abbrev Spanless : List Call → Prop := Avoids ["Span"]

/-- Neither spans nor grids are begun: spans are runs, and grids are laid out with their cells. -/
abbrev Plain : List Call → Prop := Avoids ["Span", "Grid"]

theorem Plain.spanless {cs : List Call} (h : Plain cs) : Spanless cs :=
  fun name hn => h name (List.mem_append_left ["Grid"] hn)

theorem stack_name (d : Dialect) : d.stack.name ∉ ["Span", "Grid"] := by
  rcases d with ⟨_ | _, p⟩ <;> simp [Dialect.stack]

theorem root_name (d : Dialect) : d.root.name ∉ ["Span", "Grid"] := by
  rcases d with ⟨_ | _, p⟩ <;> simp [Dialect.root]

theorem ne_span_of_notMem {name : String} (h : name ∉ ["Span", "Grid"]) : name ∉ ["Span"] :=
  fun hm => h (List.mem_append_left ["Grid"] hm)

/-! ### Images and runs -/

theorem Image.calls_whole (i : Image) : Whole i.calls := by
  refine Whole.leaf (distinctNames_of_sublist (["Source"] ++ ["WidthRequest"] ++ ["HeightRequest"])
    (by decide) ?_)
  exact sublist_append (sublist_append (List.Sublist.refl _) (sublist_option _ _ _))
    (sublist_option _ _ _)

theorem Image.calls_plain (i : Image) : Plain i.calls := avoids_leaf (by simp)

namespace Run

theorem fontAttributes_sublist (r : Run) :
    (r.fontAttributes.map Prod.fst).Sublist ["FontAttributes"] := by
  rw [fontAttributes]
  split <;> first
    | exact List.Sublist.refl _
    | exact List.nil_sublist _

theorem textDecorations_sublist (r : Run) :
    (r.textDecorations.map Prod.fst).Sublist ["TextDecorations"] := by
  rw [textDecorations]
  split <;> first
    | exact List.Sublist.refl _
    | exact List.nil_sublist _

theorem colour_sublist (p : Profile) (r : Run) : ((r.colour p).map Prod.fst).Sublist ["TextColor"] := by
  rw [colour]
  split
  · exact List.Sublist.refl _
  · split
    · exact List.Sublist.refl _
    · exact List.nil_sublist _

theorem tag_distinct (p : Profile) (r : Run) : DistinctNames (r.tag p).attributes := by
  have hc : ((if r.code then [("FontFamily", p.codeFontFamily)] else []).map Prod.fst).Sublist
      ["FontFamily"] := by
    split
    · exact List.Sublist.refl _
    · exact List.nil_sublist _
  refine distinctNames_of_sublist
    (["Text"] ++ ["FontAttributes"] ++ ["TextDecorations"] ++ ["FontFamily"] ++ ["TextColor"])
    (by decide) ?_
  exact sublist_append (sublist_append (sublist_append (sublist_append (List.Sublist.refl _)
    r.fontAttributes_sublist) r.textDecorations_sublist) hc) (r.colour_sublist p)

theorem tapCalls_whole (p : Profile) (url : String) : Whole (tapCalls p url) :=
  Whole.element (t := ⟨"Span.GestureRecognizers", []⟩) List.nodup_nil
    (Whole.leaf (t := ⟨"TapGestureRecognizer", [("Command", p.hyperlinkCommand),
      ("CommandParameter", url)]⟩) (by simp [DistinctNames]))

theorem calls_whole (p : Profile) (r : Run) : Whole (r.calls p) := by
  have ht : Whole ((r.target?.map (tapCalls p)).getD []) := by
    cases r.target? with
    | none => exact Whole.nil
    | some url => exact tapCalls_whole p url
  rw [calls, List.append_assoc]
  exact Whole.element (tag_distinct p r) ht

end Run

theorem RunBuffer.calls_whole (p : Profile) (b : RunBuffer) : Whole (b.calls p) := by
  have hi : Whole (b.items.flatMap (RunItem.calls p)) := by
    refine Whole.flatMap fun i _ => ?_
    cases i with
    | run r => exact r.calls_whole p
    | comment t => exact Whole.comment t
  rw [calls]
  split
  · exact hi
  · have hs := Whole.element (t := ⟨"FormattedString", []⟩) List.nodup_nil hi
    have hf := Whole.element (t := ⟨"Label.FormattedText", []⟩) List.nodup_nil hs
    have hl (a : Alignment) := Whole.element (t := ⟨"Label", [("LineBreakMode", "WordWrap"),
      ("HorizontalTextAlignment", a.ofLabel)]⟩) (by simp [DistinctNames]) hf
    have he := hl (b.alignment?.getD .left)
    simpa [RunBuffer.label, Call.ofTag] using he

theorem Run.calls_gridless (p : Profile) (r : Run) : Avoids ["Grid"] (r.calls p) := by
  refine avoids_append (avoids_append (avoids_ofTag (by simp [tag])) ?_) (by simp [Avoids])
  cases r.target? with
  | none => simp [Avoids]
  | some url => simp [Avoids, tapCalls, Call.ofTag]

theorem RunBuffer.calls_gridless (p : Profile) (b : RunBuffer) : Avoids ["Grid"] (b.calls p) := by
  have hi : Avoids ["Grid"] (b.items.flatMap (RunItem.calls p)) := by
    refine avoids_flatMap fun i _ => ?_
    cases i with
    | run r => exact r.calls_gridless p
    | comment t => simp [Avoids, RunItem.calls]
  rw [calls]
  split
  · exact hi
  · have hs : Avoids ["Grid"] [.element "Label.FormattedText", .element "FormattedString"] := by
      simp [Avoids]
    have he : Avoids ["Grid"] [.close, .close, .close] := by simp [Avoids]
    exact avoids_append (avoids_append (avoids_append (avoids_ofTag (by simp)) hs) hi) he

/-! ### Grids and tables -/

namespace Layout

theorem definition_whole (name key value : String) : Whole (definition name key value) :=
  Whole.leaf (t := ⟨name, [(key, value)]⟩) (by simp [DistinctNames])

theorem gridDefinitions_whole (columns : List String) (rows : Nat) :
    Whole (gridDefinitions columns rows) := by
  have hc : Whole (columns.flatMap (definition "ColumnDefinition" "Width")) :=
    Whole.flatMap fun _ _ => definition_whole _ _ _
  have hr : Whole (List.replicate rows (definition "RowDefinition" "Height" "Auto")).flatten := by
    rw [← List.flatMap_id]
    refine Whole.flatMap fun a ha => ?_
    rw [List.eq_of_mem_replicate ha]
    exact definition_whole _ _ _
  have h := (Whole.element (t := ⟨"Grid.ColumnDefinitions", []⟩) List.nodup_nil hc).append
    (Whole.element (t := ⟨"Grid.RowDefinitions", []⟩) List.nodup_nil hr)
  simpa [gridDefinitions, Call.ofTag] using h

theorem gridDefinitions_plain (columns : List String) (rows : Nat) :
    Plain (gridDefinitions columns rows) := by
  have hd (name key value : String) (h : name ∉ ["Span", "Grid"]) : Plain (definition name key value) :=
    avoids_leaf h
  have hc : Plain (columns.flatMap (definition "ColumnDefinition" "Width")) :=
    avoids_flatMap fun _ _ => hd _ _ _ (by decide)
  have hr : Plain (List.replicate rows (definition "RowDefinition" "Height" "Auto")).flatten := by
    rw [← List.flatMap_id]
    refine avoids_flatMap fun a ha => ?_
    rw [List.eq_of_mem_replicate ha]
    exact hd _ _ _ (by decide)
  have ha : Plain [.element "Grid.ColumnDefinitions"] := by simp [Avoids]
  have hb : Plain [.element "Grid.RowDefinitions"] := by simp [Avoids]
  have he : Plain [.close] := by simp [Avoids]
  exact avoids_append (avoids_append (avoids_append (avoids_append
    (avoids_append ha hc) he) hb) hr) he

def gridTag (spacing : String) : Tag :=
  ⟨"Grid", [("RowSpacing", spacing), ("ColumnSpacing", spacing)]⟩

theorem gridTag_distinct (spacing : String) : DistinctNames (gridTag spacing).attributes := by
  simp [DistinctNames, gridTag]

theorem gridStart_eq (spacing : String) (columns : List String) (rows : Nat) :
    gridStart spacing columns rows = Call.ofTag (gridTag spacing) ++ gridDefinitions columns rows := rfl

theorem gridStart_opening (spacing : String) (columns : List String) (rows : Nat) :
    Opening 1 (gridStart spacing columns rows) :=
  (Opening.ofTag (gridTag_distinct spacing)).whole (gridDefinitions_whole columns rows)

theorem captionStart_opening (d : Dialect) (caption : String) :
    Opening 1 (captionStart d caption) := by
  have hl : Whole (Call.ofTag ⟨"Label", [("LineBreakMode", "WordWrap"), ("FontAttributes", "Italic"),
      ("Text", caption)]⟩ ++ [.close]) := Whole.leaf (by simp [DistinctNames])
  rw [captionStart, List.append_assoc]
  exact (Opening.ofTag (stack_distinct d)).whole hl

/-- What stands around the grid of a table. -/
theorem tableFrame_plain (d : Dialect) (t : Table Part) : Plain (tableFrame d t) := by
  have hw : Plain ((d.tableWrapper?.map Call.ofTag).getD []) := by
    rcases d with ⟨_ | _, p⟩
    · exact avoids_ofTag (by decide)
    · simp [Avoids, Dialect.tableWrapper?]
  have hc : Plain ((t.caption.map (captionStart d)).getD []) := by
    cases t.caption with
    | none => simp [Avoids]
    | some caption =>
      exact avoids_append (avoids_append (avoids_ofTag (stack_name d))
        (avoids_ofTag (by simp))) (by simp [Avoids])
  exact avoids_append (avoids_append hw (avoids_ofTag (by simp))) hc

/-- The start of a table, up to its first cell. -/
def tableStart (d : Dialect) (t : Table Part) : List Call :=
  tableFrame d t ++ gridStart "-2" (List.replicate t.columns.toNat "Auto") t.allRows.length

theorem tableStart_spanless (d : Dialect) (t : Table Part) : Spanless (tableStart d t) :=
  avoids_append (tableFrame_plain d t).spanless
    (avoids_append (avoids_ofTag (by decide)) (gridDefinitions_plain _ _).spanless)

/-- Up to three elements are opened around the grid of a table. -/
theorem tableFrame_opening (d : Dialect) (t : Table Part) : ∃ n, Opening n (tableFrame d t) := by
  have hw : ∃ n, Opening n ((d.tableWrapper?.map Call.ofTag).getD []) := by
    rcases d with ⟨_ | _, p⟩
    · exact ⟨1, Opening.ofTag (by simp [DistinctNames])⟩
    · exact ⟨0, Opening.nil⟩
  have hv : DistinctNames (("Padding", d.spacing .block) ::
      (t.id.map fun i => ("AutomationId", i)).toList) :=
    distinctNames_of_sublist ["Padding", "AutomationId"] (by decide)
      ((sublist_option t.id "AutomationId" id).cons_cons "Padding")
  have hc : ∃ n, Opening n ((t.caption.map (captionStart d)).getD []) := by
    cases t.caption with
    | none => exact ⟨0, Opening.nil⟩
    | some caption => exact ⟨1, captionStart_opening d caption⟩
  obtain ⟨m, hw⟩ := hw
  obtain ⟨n, hc⟩ := hc
  exact ⟨_, (hw.append (Opening.ofTag hv)).append hc⟩

theorem tableStart_opening (d : Dialect) (t : Table Part) : ∃ n, Opening n (tableStart d t) := by
  obtain ⟨n, hn⟩ := tableFrame_opening d t
  exact ⟨n + 1, hn.append (gridStart_opening _ _ _)⟩

end Layout

end XamlDoc
