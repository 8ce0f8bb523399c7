import XamlDoc.Proofs.Config.Validity

/-!
# Which configuration is loaded

Without a path at the call, the nearest file of the usual name counts and no other. Each value of the configuration is
the one chosen at the call, else the one in the file, else the usual one. The values of the profile are those of the
dialect that was decided upon, except those that the file replaces.
-/

namespace XamlDoc

/-! ### Programs that only look -/

/-- The program changes no file. -/
def Access.Reads {α : Type} (m : Access α) : Prop := ∀ w, (m.run w).2 = w

theorem Access.Reads.bind {α β : Type} {m : Access α} {f : α → Access β} (hm : m.Reads) (hf : ∀ a, (f a).Reads) :
    (m.bind f).Reads := by
  intro w
  rw [run_bind, hf, hm]

namespace Config

theorem reads_firstThere (l : List FileName) : (firstThere l).Reads := by
  induction l with
  | nil => exact fun w => rfl
  | cons file r ih =>
    intro w
    rw [firstThere, Access.run]
    cases (w.seen? file).isSome with
    | true => rfl
    | false => exact ih w

theorem reads_discover : discover.Reads := fun w => reads_firstThere _ w

theorem reads_stored (path? : Option String) : (stored path?).Reads := by
  cases path? with
  | some path =>
    intro w
    rw [stored, Access.run]
    cases (w.seen? (.given path)).isSome <;> rfl
  | none =>
    refine reads_discover.bind fun file? => ?_
    cases file? <;> exact fun w => rfl

theorem reads_load (path? : Option String) (choices : Choices) : (load path? choices).Reads :=
  (reads_stored path?).bind fun _ _ => rfl

/-! ### The nearest file -/

/-- The entry of the usual name in the directory so many levels above the working directory. -/
def entryAbove (w : Workspace) (levels : Nat) : Option FileEntry := w.seen? (.above levels fileName)

/-- The entry of the usual name that is so many levels above the working directory has no other below it. -/
structure Nearest (w : Workspace) (levels : Nat) : Prop where
  le : levels ≤ w.cwd.length
  isThere : (entryAbove w levels).isSome
  nearer : ∀ l < levels, entryAbove w l = none

theorem Nearest.congr {w w' : Workspace} {levels : Nat} (h : Nearest w levels) (hc : w'.cwd = w.cwd)
    (he : ∀ l ≤ levels, entryAbove w' l = entryAbove w l) : Nearest w' levels where
  le := hc ▸ h.le
  isThere := he levels (Nat.le_refl levels) ▸ h.isThere
  nearer l hl := (he l (Nat.le_of_lt hl)).trans (h.nearer l hl)

theorem run_firstThere (l : List FileName) (w : Workspace) :
    ((firstThere l).run w).1 = l.find? fun file => (w.seen? file).isSome := by
  induction l with
  | nil => rfl
  | cons file r ih =>
    rw [firstThere, Access.run, List.find?_cons]
    cases (w.seen? file).isSome with
    | true => rfl
    | false => exact ih

theorem run_discover (w : Workspace) :
    (discover.run w).1 =
      ((List.range (w.cwd.length + 1)).find? fun l => (entryAbove w l).isSome).map (.above · fileName) := by
  rw [discover, Access.run, run_firstThere, List.find?_map]
  rfl

theorem discover_of_nearest {w : Workspace} {levels : Nat} (h : Nearest w levels) :
    (discover.run w).1 = some (.above levels fileName) := by
  have hf : (List.range (w.cwd.length + 1)).find? (fun l => (entryAbove w l).isSome) = some levels := by
    refine List.find?_range_eq_some.2 ⟨h.isThere, List.mem_range.2 (Nat.lt_succ_of_le h.le), fun l hl => ?_⟩
    rw [h.nearer l hl]
    rfl
  rw [run_discover, hf]
  rfl

theorem nearest_or_none (w : Workspace) :
    (∃ levels, Nearest w levels) ∨
      (∀ levels ≤ w.cwd.length, entryAbove w levels = none) ∧ (discover.run w).1 = none := by
  cases hf : (List.range (w.cwd.length + 1)).find? fun l => (entryAbove w l).isSome with
  | some levels =>
    obtain ⟨hs, hm, hn⟩ := List.find?_range_eq_some.1 hf
    refine .inl ⟨levels, Nat.le_of_lt_succ (List.mem_range.1 hm), hs, fun l hl => ?_⟩
    simpa using hn l hl
  | none =>
    refine .inr ⟨fun l hl => ?_, by rw [run_discover, hf]; rfl⟩
    simpa using List.find?_eq_none.1 hf l (List.mem_range.2 (Nat.lt_succ_of_le hl))

theorem load_of_nearest {w : Workspace} {levels : Nat} (h : Nearest w levels) (choices : Choices) :
    ((load none choices).run w).1 =
      (ofBytes (.above levels fileName) (w.read? (.above levels fileName))).map fun c => c.choose choices := by
  rw [load, stored, Access.run_bind, Access.run_bind, discover_of_nearest h, reads_discover]
  rfl

theorem load_of_none {w : Workspace} (h : (discover.run w).1 = none) (choices : Choices) :
    ((load none choices).run w).1 = .ok (standard.choose choices) := by
  rw [load, stored, Access.run_bind, Access.run_bind, h]
  rfl

end Config

/-! ### Fields that may be left out -/

theorem Decoder.eq_of_nullable {α : Type} {value : Decoder α} {d : Data} {a? : Option α} (hv : value .null = none)
    (h : nullable value d = some a?) : a? = value d := by
  unfold nullable at h
  split at h
  · cases h
    exact hv.symm
  · obtain ⟨a, ha, rfl⟩ := Option.map_eq_some_iff.1 h
    exact ha.symm

namespace Fields

variable {α : Type} {f : Fields} {name : String} {value : Decoder α}

theorem required_of_withDefault {default a : α} (h : f.withDefault name default value = some a) :
    a = (f.required name value).getD default := by
  rw [withDefault] at h
  rw [required]
  cases hl : f.lookup name with
  | none =>
    rw [hl] at h
    exact (Option.some.inj h).symm
  | some d =>
    rw [hl] at h
    rw [Option.bind_some, show value d = some a from h]
    rfl

theorem required_of_optional {a? : Option α} (hv : value .null = none) (h : f.optional name value = some a?) :
    a? = f.required name value := by
  rw [optional, withDefault] at h
  rw [required]
  cases hl : f.lookup name with
  | none =>
    rw [hl] at h
    exact (Option.some.inj h).symm
  | some d =>
    rw [hl] at h
    exact Decoder.eq_of_nullable hv h

theorem bind_optional {β : Type} {next : Option α → Option β} {b : β} (hv : value .null = none)
    (h : (f.optional name value).bind next = some b) : next (f.required name value) = some b := by
  obtain ⟨a?, ha, hn⟩ := Option.bind_eq_some_iff.1 h
  rwa [required_of_optional hv ha] at hn

/-- The fields of a record that may be left out. -/
def within (names : List String) (d? : Option Data) : Fields := (d?.bind (ofLeading? names)).getD []

end Fields

namespace Config

/-- What a file has been read as, if it is text that can be read. -/
def dataOf (bytes? : Option (List UInt8)) : Option Data := (bytes?.bind Text.ofBytes?).bind Data.Toml.read?

/-! ### Values that are given -/

section Given

variable (d? : Option Data)

def settingsFields : Fields := .within ["dialect", "output", "profile"] d?

def outputFields : Fields := .within ["indent", "body_only"] ((settingsFields d?).lookup "output")

def profileFields : Fields := .within Overrides.fieldNames ((settingsFields d?).lookup "profile")

def givenDialect? : Option DialectKind :=
  ((settingsFields d?).required "dialect" Decoder.string).bind DialectKind.ofName?

def givenIndent? : Option Nat := (outputFields d?).required "indent" Decoder.natural

def givenBodyOnly? : Option Bool := (outputFields d?).required "body_only" Decoder.boolean

end Given

def thickness : Decoder Thickness := fun d => (Decoder.string d).bind Thickness.read?

open Decoder in
/-- The profile with the values that are given in place of its own. -/
def replaced (f : Fields) (p : Profile) : Profile where
  headerFontSize := (f.required "header_font_size" (list word32)).getD p.headerFontSize
  headerColor := (f.required "header_color" (list string)).getD p.headerColor
  paragraphMargins := (f.required "paragraph_margins" thickness).getD p.paragraphMargins
  tableCellPadding := (f.required "table_cell_padding" thickness).getD p.tableCellPadding
  tableCellBorderColor := (f.required "table_cell_border_color" string).getD p.tableCellBorderColor
  tableCellBorderThickness := (f.required "table_cell_border_thickness" float).getD p.tableCellBorderThickness
  tableRowBackgroundColors := (f.required "table_row_background_colors" (list string)).getD p.tableRowBackgroundColors
  blockQuoteMargin := (f.required "block_quote_margin" word32).getD p.blockQuoteMargin
  blockQuotePadding := (f.required "block_quote_padding" word32).getD p.blockQuotePadding
  blockQuoteBorderColor := (f.required "block_quote_border_color" string).getD p.blockQuoteBorderColor
  insertedBorderColor := (f.required "inserted_border_color" string).getD p.insertedBorderColor
  deletedBorderColor := (f.required "deleted_border_color" string).getD p.deletedBorderColor
  listContentMargin := (f.required "list_content_margin" word32).getD p.listContentMargin
  definitionSeparator := (f.required "definition_separator" word32).getD p.definitionSeparator
  definitionMargin := (f.required "definition_margin" word32).getD p.definitionMargin
  superscriptScale := (f.required "superscript_scale" float).getD p.superscriptScale
  superscriptOffset := ((f.required "superscript_offset" signed32).map Int32.ofInt).getD p.superscriptOffset
  footnoteSeparator := (f.required "footnote_separator" word32).getD p.footnoteSeparator
  defaultGraphWidth := (f.required "default_graph_width" word32).getD p.defaultGraphWidth
  defaultGraphHeight := (f.required "default_graph_height" word32).getD p.defaultGraphHeight
  codeFontFamily := (f.required "code_font_family" string).getD p.codeFontFamily
  hyperlinkColor := (f.required "hyperlink_color" string).getD p.hyperlinkColor
  hyperlinkCommand := (f.required "hyperlink_command" string).getD p.hyperlinkCommand
  ruleColor := (f.required "rule_color" string).getD p.ruleColor
  errorColor := (f.required "error_color" string).getD p.errorColor

theorem getD_of_thickness {field name : String} {f : Fields} {current t : Thickness}
    (h : Overrides.thickness field (f.required name Decoder.string) current = .ok t) :
    t = (f.required name thickness).getD current := by
  have ht : f.required name thickness = (f.required name Decoder.string).bind Thickness.read? :=
    (Option.bind_assoc ..).symm
  rw [ht]
  unfold Overrides.thickness at h
  split at h
  · rename_i hn
    cases h
    rw [hn]
    rfl
  · rename_i text hs
    rw [hs, Option.bind_some]
    split at h
    · rename_i hr
      cases h
      rw [hr]
      rfl
    · cases h

theorem replaced_of_apply {f : Fields} {o : Overrides} {p q : Profile} (ho : Overrides.ofFields? f = some o)
    (h : o.apply p = .ok q) : q = replaced f p := by
  unfold Overrides.ofFields? at ho
  repeat replace ho := Fields.bind_optional rfl ho
  cases ho
  obtain ⟨margins, hm, h⟩ := ok_of_bind h
  obtain ⟨padding, hp, h⟩ := ok_of_bind h
  cases h
  rw [getD_of_thickness hm, getD_of_thickness hp]
  rfl

theorem of_decodeOutput {f : Fields} {indent : Nat} {bodyOnly : Bool}
    (h : f.withDefault "output" (standard.indent, standard.bodyOnly) Settings.decodeOutput = some (indent, bodyOnly)) :
    let g : Fields := .within ["indent", "body_only"] (f.lookup "output")
    indent = (g.required "indent" Decoder.natural).getD 2 ∧
      bodyOnly = (g.required "body_only" Decoder.boolean).getD false := by
  rw [Fields.withDefault] at h
  cases hl : f.lookup "output" with
  | none =>
    rw [hl] at h
    cases h
    exact ⟨rfl, rfl⟩
  | some d =>
    rw [hl] at h
    obtain ⟨g, hg, h⟩ := Option.bind_eq_some_iff.1 (show Settings.decodeOutput d = some _ from h)
    obtain ⟨i, hi, h⟩ := Option.bind_eq_some_iff.1 h
    obtain ⟨b, hb, h⟩ := Option.bind_eq_some_iff.1 h
    cases h
    have hw : Fields.within ["indent", "body_only"] (some d) = g := by rw [Fields.within, Option.bind_some, hg]; rfl
    rw [hw]
    exact ⟨Fields.required_of_withDefault hi, Fields.required_of_withDefault hb⟩

theorem of_decodeProfile {f : Fields} {o : Overrides} (h : f.withDefault "profile" ∅ Settings.decodeProfile = some o) :
    Overrides.ofFields? (.within Overrides.fieldNames (f.lookup "profile")) = some o := by
  rw [Fields.withDefault] at h
  cases hl : f.lookup "profile" with
  | none =>
    rw [hl] at h
    cases h
    rfl
  | some d =>
    rw [hl] at h
    obtain ⟨g, hg, h⟩ := Option.bind_eq_some_iff.1 (show Settings.decodeProfile d = some _ from h)
    rwa [Fields.within, Option.bind_some, hg]

/-! ### What is decided -/

/-- Each value is the one that is chosen, else the one that is given, else the usual one. -/
structure Resolved (choices : Choices) (d? : Option Data) (c : Config) : Prop where
  dialect : c.dialect = choices.dialect?.getD ((givenDialect? d?).getD .maui)
  indent : c.indent = choices.indent?.getD ((givenIndent? d?).getD 2)
  bodyOnly : c.bodyOnly = choices.bodyOnly?.getD ((givenBodyOnly? d?).getD false)
  profile : c.profile = .ok (replaced (profileFields d?) c.dialect.defaultProfile)

variable {c : Config}

theorem profile_of_validate (h : c.validate = .ok ()) (choices : Choices) :
    ∃ p, (c.choose choices).profile = .ok p := by
  -- the check ends with the profile, for one dialect or another
  obtain ⟨-, -, h⟩ := ok_of_bind h
  obtain ⟨-, -, h⟩ := ok_of_bind h
  obtain ⟨-, -, h⟩ := ok_of_bind h
  obtain ⟨-, -, h⟩ := ok_of_bind h
  obtain ⟨-, -, h⟩ := ok_of_bind h
  obtain ⟨-, -, h⟩ := ok_of_bind h
  obtain ⟨-, -, h⟩ := ok_of_bind h
  have hp : (c.overrides.apply (c.choose choices).dialect.defaultProfile >>= fun _ => pure ()) = .ok () :=
    (c.overrides.apply_bind _ _ _).trans h
  obtain ⟨p, hp, -⟩ := ok_of_bind hp
  exact ⟨p, hp⟩

theorem resolved_standard (choices : Choices) : Resolved choices none (standard.choose choices) where
  dialect := rfl
  indent := rfl
  bodyOnly := rfl
  profile := rfl

theorem ofBytes_eq_ok {source : FileName} {bytes? : Option (List UInt8)} (h : ofBytes source bytes? = .ok c) :
    ∃ d s, dataOf bytes? = some d ∧ Settings.decode d = some s ∧ s.toConfig source = .ok c := by
  unfold ofBytes at h
  split at h
  · cases h
  · rename_i text ht
    unfold ofText at h
    split at h
    · cases h
    · rename_i s hs
      obtain ⟨d, hd, hs⟩ := Option.bind_eq_some_iff.1 hs
      refine ⟨d, s, by rw [dataOf, ht]; exact hd, hs, ?_⟩
      cases hc : s.toConfig source with
      | error e =>
        rw [hc] at h
        cases h
      | ok c' =>
        rw [hc] at h
        cases h
        rfl

theorem toConfig_eq_ok {s : Settings} {source : FileName} (h : s.toConfig source = .ok c) :
    c = ⟨(s.dialect?.bind DialectKind.ofName?).getD .maui, s.indent, s.bodyOnly, s.overrides, some source⟩ := by
  have checked {d : Config} (hd : (d.validate >>= fun _ => pure d) = .ok c) : c = d := by
    obtain ⟨-, -, hd⟩ := ok_of_bind hd
    cases hd
    rfl
  unfold Settings.toConfig at h
  split at h
  · rename_i hn
    rw [checked h, hn]
    rfl
  · rename_i name hn
    rw [hn, Option.bind_some]
    split at h
    · rename_i kind hk
      rw [checked h, hk]
      rfl
    · cases h

theorem resolved_of_ofBytes {source : FileName} {bytes? : Option (List UInt8)} (h : ofBytes source bytes? = .ok c)
    (choices : Choices) :
    c.source? = some source ∧ ∃ d, dataOf bytes? = some d ∧ Resolved choices (some d) (c.choose choices) := by
  obtain ⟨p, hp⟩ := profile_of_validate (validate_ofBytes h) choices
  obtain ⟨d, s, hd, hs, hc⟩ := ofBytes_eq_ok h
  obtain ⟨f, hf, hs⟩ := Option.bind_eq_some_iff.1 hs
  obtain ⟨⟨indent, bodyOnly⟩, hout, hs⟩ := Option.bind_eq_some_iff.1 hs
  obtain ⟨dialect?, hdialect, hs⟩ := Option.bind_eq_some_iff.1 hs
  obtain ⟨overrides, hoverrides, hs⟩ := Option.bind_eq_some_iff.1 hs
  cases hs
  have hfields : settingsFields (some d) = f := by
    rw [settingsFields, Fields.within, Option.bind_some, hf]
    rfl
  obtain rfl := toConfig_eq_ok hc
  obtain ⟨hindent, hbody⟩ := of_decodeOutput hout
  refine ⟨rfl, d, hd, ?_, ?_, ?_, ?_⟩
  · show choices.dialect?.getD ((dialect?.bind DialectKind.ofName?).getD .maui) = _
    rw [givenDialect?, hfields, Fields.required_of_optional rfl hdialect]
  · show choices.indent?.getD indent = _
    rw [givenIndent?, outputFields, hfields, hindent]
  · show choices.bodyOnly?.getD bodyOnly = _
    rw [givenBodyOnly?, outputFields, hfields, hbody]
  · rw [hp, replaced_of_apply (of_decodeProfile hoverrides) hp, profileFields, hfields]

/-! ### Loading -/

/-- Without a path at the call, the nearest file decides and nothing farther is looked at: what is wrong with it is
wrong with the configuration. If there is none in the working directory and around it, the usual values are taken.
Either way the values that are chosen come first, those of the file next, and the profile is there for every
dialect. -/
theorem load_resolves (choices : Choices) (w : Workspace) :
    let r := (load none choices).run w
    r.2 = w ∧
      ((∃ levels, Nearest w levels ∧
          let file := FileName.above levels fileName
          r.1 = (ofBytes file (w.read? file)).map (fun c => c.choose choices) ∧
            (∀ w' : Workspace, w'.cwd = w.cwd → (∀ l ≤ levels, entryAbove w' l = entryAbove w l) →
              ((load none choices).run w').1 = r.1) ∧
            ∀ c, r.1 = .ok c → c.source? = some file ∧
              ∃ d, dataOf (w.read? file) = some d ∧ Resolved choices (some d) c) ∨
        (∀ levels ≤ w.cwd.length, entryAbove w levels = none) ∧
          ∃ c, r.1 = .ok c ∧ c.source? = none ∧ Resolved choices none c) := by
  intro r
  refine ⟨reads_load none choices w, ?_⟩
  rcases nearest_or_none w with ⟨levels, h⟩ | ⟨hnone, hd⟩
  · refine .inl ⟨levels, h, load_of_nearest h choices, fun w' hc he => ?_, fun c hr => ?_⟩
    · have hread : w'.read? (.above levels fileName) = w.read? (.above levels fileName) := by
        rw [Workspace.read?, Workspace.read?, show w'.seen? _ = _ from he levels (Nat.le_refl levels)]
        rfl
      rw [load_of_nearest (h.congr hc he), hread]
      exact (load_of_nearest h choices).symm
    · have hr := (load_of_nearest h choices).symm.trans hr
      cases hb : ofBytes (.above levels fileName) (w.read? (.above levels fileName)) with
      | error e =>
        rw [hb] at hr
        cases hr
      | ok c' =>
        rw [hb] at hr
        cases hr
        exact resolved_of_ofBytes hb choices
  · exact .inr ⟨hnone, standard.choose choices, load_of_none hd choices, rfl, resolved_standard choices⟩

end Config

end XamlDoc
