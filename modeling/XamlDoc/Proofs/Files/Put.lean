import XamlDoc.Files.Access

/-!
# Files that are put in a tree

A file that is put at the target of a path changes what stands there and nothing else. It is found again by the same
path, and may be replaced by it.
-/

namespace XamlDoc

namespace FileTree

variable {t : FileTree} {target : List String} {e : FileEntry}

theorem entry?_put (h : target ≠ []) : entry? (t.put target e) target = some e := by
  cases target with
  | nil => exact absurd rfl h
  | cons name r => simp [ entry?, put]

theorem entry?_put_of_ne {others : List String} (h : others ≠ target) :
    entry? (t.put target e) others = t.entry? others := by
  cases others with
  | nil => rfl
  | cons name r =>
    have hn : (name :: r == target) = false := by simpa using h
    simp only [ entry?, put, List.lookup_cons, hn]

theorem seen?_put_of_ne {p : Place} (h : p ≠ .inside target) : (t.put target e).seen? p = t.seen? p := by
  cases p with
  | outside => rfl
  | inside others => exact entry?_put_of_ne fun ho => h (ho ▸ rfl)

/-! ### Walks -/

theorem walk?_append (p : Place) (a b : List String) :
    t.walk? p (a ++ b) = (t.walk? p a).bind fun q => t.walk? q b := by
  induction a generalizing p with
  | nil => rfl
  | cons name r ih =>
    rw [List.cons_append, walk?, walk?]
    cases t.step? p name with
    | none => rfl
    | some q => exact ih q

theorem directory_of_step? {p q : Place} {name : String} (h : t.step? p name = some q) :
    t.seen? p = some .directory := by
  unfold step? at h
  split at h
  · cases h
  · rename_i hd
    exact Decidable.not_not.1 hd

/-- A walk to a directory goes through directories only. -/
theorem directory_of_walk? {p q : Place} {parts : List String} (h : t.walk? p parts = some q)
    (hq : t.seen? q = some .directory) : t.seen? p = some .directory := by
  cases parts with
  | nil =>
    cases h
    exact hq
  | cons name r =>
    obtain ⟨p', hp, -⟩ := Option.bind_eq_some_iff.1 h
    exact directory_of_step? hp

section

variable (hn : t.entry? target ≠ some .directory)
include hn

theorem seen?_put_of_directory {p : Place} (h : t.seen? p = some .directory) :
    (t.put target e).seen? p = some .directory := by
  rw [seen?_put_of_ne, h]
  rintro rfl
  exact hn h

theorem step?_put {p q : Place} {name : String} (h : t.step? p name = some q)
    (hq : t.seen? q = some .directory) : (t.put target e).step? p name = some q := by
  have hp := directory_of_step? h
  have hp' : (t.put target e).seen? p = some .directory := seen?_put_of_directory hn hp
  unfold step? at h ⊢
  rw [if_neg (by simp [hp])] at h
  rw [if_neg (by simp [hp']), ← h]
  split
  · rfl
  · split
    · rfl
    · rename_i h1 h2
      rw [if_neg h1, if_neg h2] at h
      cases p with
      | outside => rfl
      | inside around =>
        obtain ⟨child, hc, rfl⟩ := Option.map_eq_some_iff.1 h
        have hd : t.entry? (around ++ [name]) = some .directory := hq
        have hd' : entry? (t.put target e) (around ++ [name]) = some .directory :=
          seen?_put_of_directory (p := .inside _) hn hd
        simp only [hd, hd']

/-- A file that is put where no directory is stands in no walk's way. -/
theorem walk?_put {p q : Place} {parts : List String} (h : t.walk? p parts = some q)
    (hq : t.seen? q = some .directory) : (t.put target e).walk? p parts = some q := by
  induction parts generalizing p with
  | nil => exact h
  | cons name r ih =>
    obtain ⟨p', hp, hr⟩ := Option.bind_eq_some_iff.1 h
    rw [walk?, step?_put hn hp (directory_of_walk? hr hq)]
    exact ih hr

end

/-! ### Targets -/

/-- The directory that a path leads to, and the name of the file in it. -/
theorem target?_eq_some_iff {cwd : List String} {path : String} :
    t.target? cwd path = some target ↔ ∃ start parts name around, names cwd path = (start, parts ++ [name]) ∧
      target = around ++ [name] ∧ isName name = true ∧ t.walk? start parts = some (.inside around) ∧
      t.entry? around = some .directory ∧ t.entry? target ≠ some .directory := by
  constructor
  · intro h
    unfold target? at h
    generalize hp : names cwd path = p at h
    obtain ⟨start, parts⟩ := p
    dsimp only at h
    split at h
    · rename_i name around hl hw
      split at h
      · rename_i hc
        cases h
        obtain ⟨parts, rfl⟩ := List.getLast?_eq_some_iff.1 hl
        rw [List.dropLast_concat] at hw
        simp only [Bool.and_eq_true, decide_eq_true_eq] at hc
        exact ⟨start, parts, name, around, rfl, rfl, hc.1.1, hw, hc.1.2, hc.2⟩
      · cases h
    · cases h
  · rintro ⟨start, parts, name, around, hp, rfl, hn, hw, hd, ht⟩
    simp [target?, hp, hn, hw, hd, ht]

variable {cwd : List String} {path : String} (h : t.target? cwd path = some target)
include h

theorem ne_nil_of_target? : target ≠ [] := by
  obtain ⟨start, parts, name, around, -, rfl, -⟩ := target?_eq_some_iff.1 h
  simp

/-- The same path leads to a file that was put where it leads. -/
theorem target?_put (bytes : List UInt8) : (t.put target (.file bytes)).target? cwd path = some target := by
  have hn := ne_nil_of_target? h
  obtain ⟨start, parts, name, around, hp, ht, hname, hw, hd, hf⟩ := target?_eq_some_iff.1 h
  have ha : entry? (t.put target (.file bytes)) around = some .directory :=
    seen?_put_of_directory (p := .inside around) hf hd
  refine target?_eq_some_iff.2 ⟨start, parts, name, around, hp, ht, hname, walk?_put hf hw hd, ha, ?_⟩
  rw [ entry?_put hn]
  simp

theorem locate?_put (e : FileEntry) : (t.put target e).locate? cwd path = some (.inside target) := by
  have hn := ne_nil_of_target? h
  obtain ⟨start, parts, name, around, hp, ht, hname, hw, hd, hf⟩ := target?_eq_some_iff.1 h
  have ha : (t.put target e).seen? (.inside around) = some .directory :=
    seen?_put_of_directory (p := .inside around) hf hd
  simp only [isName, Bool.and_eq_true, decide_eq_true_eq] at hname
  have hs : (t.put target e).step? (.inside around) name = some (.inside target) := by
    unfold step?
    rw [if_neg (by simp [ha]), if_neg (by simp [hname]), if_neg hname.2]
    simp only [← ht, entry?_put hn]
    rfl
  have hne : path ≠ "" := by
    rintro rfl
    have hempty : names cwd "" = (.outside, []) := rfl
    rw [hempty] at hp
    simp at hp
  rw [locate?, if_neg hne, hp]
  show FileTree.walk? _ start (parts ++ [name]) = _
  rw [walk?_append, walk?_put hf hw hd, Option.bind_some, walk?, hs]
  rfl

end FileTree

end XamlDoc
