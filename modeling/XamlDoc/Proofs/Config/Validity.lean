import XamlDoc.Config.Load

/-!
# Validity of configurations

A configuration that comes from a file is checked before the choices of the call are made. Of the values
that a choice replaces, only the indentation is looked at by the check: the overrides of the profile can be
applied to all profiles or to none.
-/

namespace XamlDoc

theorem Config.ok_of_bind {ε α β : Type} {m : Except ε α} {f : α → Except ε β} {b : β}
    (h : (m >>= f) = .ok b) : ∃ a, m = .ok a ∧ f a = .ok b := by
  cases m with
  | error e => cases h
  | ok a => exact ⟨a, rfl, h⟩

/-! ### Overrides -/

namespace Overrides

theorem thickness_bind {α : Type} (field : String) (text? : Option String) (current other : Thickness)
    (m : Except InvalidValue α) :
    (thickness field text? current >>= fun _ => m) = (thickness field text? other >>= fun _ => m) := by
  cases text? with
  | none => rfl
  | some text =>
    unfold thickness
    cases Thickness.read? text with
    | none => rfl
    | some t => rfl

/-- What is wrong with some overrides is the same for all profiles. -/
theorem apply_bind {α : Type} (o : Overrides) (p q : Profile) (m : Except InvalidValue α) :
    (o.apply p >>= fun _ => m) = (o.apply q >>= fun _ => m) := by
  -- both texts are read for every profile; only the values left in place of absent ones are its own
  have apply_eq (p : Profile) : (o.apply p >>= fun _ => m) =
      (thickness "profile.paragraph_margins" o.paragraphMargins p.paragraphMargins >>= fun _ =>
        thickness "profile.table_cell_padding" o.tableCellPadding p.tableCellPadding >>= fun _ => m) := by
    unfold apply
    cases thickness "profile.paragraph_margins" o.paragraphMargins p.paragraphMargins with
    | error e => rfl
    | ok margins =>
      cases thickness "profile.table_cell_padding" o.tableCellPadding p.tableCellPadding with
      | error e => rfl
      | ok padding => rfl
  have padding := thickness_bind "profile.table_cell_padding" o.tableCellPadding
    p.tableCellPadding q.tableCellPadding m
  rw [apply_eq p, apply_eq q, padding]
  exact thickness_bind _ _ _ _ _

end Overrides

namespace Config

variable {c : Config}

/-! ### The check -/

theorem validate_of_indentLimit_lt (h : indentLimit < c.indent) :
    c.validate = .error (.indent indentLimit) := by
  have hn : ¬ c.indent ≤ indentLimit := Nat.not_le.2 h
  unfold validate require
  simp only [hn, decide_false]
  rfl

theorem indent_le_of_validate (h : c.validate = .ok ()) : c.indent ≤ indentLimit := by
  rcases Nat.lt_or_ge indentLimit c.indent with hn | hc
  · rw [validate_of_indentLimit_lt hn] at h
    cases h
  · exact hc

/-- Other values than the indentation and the overrides are not looked at. -/
theorem validate_congr {d : Config} (hc : c.indent ≤ indentLimit) (hd : d.indent ≤ indentLimit)
    (ho : d.overrides = c.overrides) : d.validate = c.validate := by
  have profile := c.overrides.apply_bind d.dialect.defaultProfile c.dialect.defaultProfile
    (pure () : Except InvalidValue Unit)
  unfold validate Config.profile
  simp only [hc, hd, ho]
  rw [profile]

/-- The choices keep a valid configuration valid, except by a large indentation. -/
theorem validate_choose (h : c.validate = .ok ()) (choices : Choices) :
    (c.choose choices).validate =
      if choices.indent?.getD 0 ≤ indentLimit then .ok () else .error (.indent indentLimit) := by
  have hc := indent_le_of_validate h
  have hi : (c.choose choices).indent = choices.indent?.getD c.indent := rfl
  cases hn : choices.indent? with
  | none =>
    have hd : (c.choose choices).indent ≤ indentLimit := by
      rw [hi, hn]
      exact hc
    rw [validate_congr hc hd rfl, h]
    rfl
  | some n =>
    rw [hn] at hi
    change (c.choose choices).indent = n at hi
    by_cases hl : n ≤ indentLimit
    · have hd : (c.choose choices).indent ≤ indentLimit := hi ▸ hl
      rw [validate_congr hc hd rfl, h]
      exact (if_pos hl).symm
    · have hd : indentLimit < (c.choose choices).indent := hi ▸ Nat.lt_of_not_le hl
      rw [validate_of_indentLimit_lt hd]
      exact (if_neg hl).symm

/-! ### Loading -/

theorem validate_standard : standard.validate = .ok () := rfl

theorem validate_toConfig {s : Settings} {source : FileName} (h : s.toConfig source = .ok c) :
    c.validate = .ok () := by
  have checked {d : Config} (hd : (d.validate >>= fun _ => pure d) = .ok c) : c.validate = .ok () := by
    obtain ⟨⟨⟩, hv, hd⟩ := ok_of_bind hd
    cases hd
    exact hv
  unfold Settings.toConfig at h
  split at h
  · exact checked h
  · split at h
    · exact checked h
    · cases h

theorem validate_ofBytes {source : FileName} {bytes? : Option (List UInt8)}
    (h : ofBytes source bytes? = .ok c) : c.validate = .ok () := by
  unfold ofBytes at h
  split at h
  · cases h
  · unfold ofText at h
    split at h
    · cases h
    · rename_i settings _
      cases hs : settings.toConfig source with
      | error e =>
        rw [hs] at h
        cases h
      | ok d =>
        rw [hs] at h
        cases h
        exact validate_toConfig hs

theorem validate_stored {path? : Option String} {w : Workspace}
    (h : ((stored path?).run w).1 = .ok c) : c.validate = .ok () := by
  cases path? with
  | some path =>
    simp only [stored, Access.run] at h
    cases ht : (w.seen? (.given path)).isSome with
    | true =>
      rw [ht] at h
      exact validate_ofBytes h
    | false =>
      rw [ht] at h
      cases h
  | none =>
    simp only [stored, Access.run_bind] at h
    cases hd : (discover.run w).1 with
    | none =>
      rw [hd] at h
      cases h
      exact validate_standard
    | some file =>
      rw [hd] at h
      exact validate_ofBytes h

/-- A configuration that loads is valid just if no indentation above the limit was chosen at the call,
and nothing else can be wrong with it. -/
theorem load_validate {path? : Option String} {choices : Choices} {w w' : Workspace}
    (h : (load path? choices).run w = (.ok c, w')) :
    (c.validate = .ok () ↔ ∀ n, choices.indent? = some n → n ≤ indentLimit) ∧
      (c.validate ≠ .ok () → c.validate = .error (.indent indentLimit)) := by
  unfold load at h
  rw [Access.run_bind] at h
  cases hs : ((stored path?).run w).1 with
  | error e =>
    rw [hs] at h
    cases h
  | ok d =>
    rw [hs] at h
    cases h
    rw [validate_choose (validate_stored hs)]
    cases choices.indent? with
    | none => simp [indentLimit]
    | some n => by_cases hl : n ≤ indentLimit <;> simp [hl]

/-- Beside a file that leaves everything out, an indentation above the limit is taken as it is chosen. -/
theorem load_indent_unchecked : ∃ c w, (load (some "xamd.toml") ⟨none, none, some 17⟩).run
      ⟨FileTree.empty.put ["xamd.toml"] (.file []), [], []⟩ = (.ok c, w) ∧
    c.indent = 17 ∧ c.validate = .error (.indent indentLimit) :=
  ⟨_, _, rfl, rfl, rfl⟩

def project : Workspace :=
  ⟨FileTree.empty.put ["docs"] .directory |>.put ["xamd.toml"]
    (.file (Text.toBytes "dialect = \"maui\"\n[output]\nindent = 4\n")), ["docs"], []⟩

/-- The file of the directory around the working directory, and the largest indentation. -/
theorem load_validate_project : ∃ c w,
    (load none ⟨some .xamarinForms, none, some 16⟩).run project = (.ok c, w) ∧
      c.source? = some (.above 1 fileName) ∧ c.validate = .ok () := by
  have hs : ((load none ⟨some .xamarinForms, none, some 16⟩).run project).1.toOption.bind Config.source? =
      some (.above 1 fileName) := by decide +kernel
  cases h : (load none ⟨some .xamarinForms, none, some 16⟩).run project with
  | mk loaded w =>
    rw [h] at hs
    cases loaded with
    | error e => cases hs
    | ok c =>
      have hl : ∀ n, some 16 = some n → n ≤ indentLimit := by
        intro n hn
        cases hn
        decide
      exact ⟨c, w, rfl, hs, (load_validate h).1.2 hl⟩

end Config

end XamlDoc
