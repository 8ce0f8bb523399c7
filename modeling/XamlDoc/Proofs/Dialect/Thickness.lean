import Mathlib.Data.List.Forall2
import XamlDoc.Dialect.Thickness
import XamlDoc.Proofs.Text.Numerals

/-!
# The text of a thickness

A thickness is read from four numerals with commas between them and blanks around each. What is written is one of the
texts from which it is read.
-/

namespace XamlDoc

open Text (Numeral isBlank)

namespace Thickness

/-! ### Parts between commas -/

/-- Blanks around a numeral for `n`. -/
def Writes (n : Nat) (part : List Char) : Prop :=
  ∃ before word after, part = before ++ word ++ after ∧ Numeral n word ∧ (∀ c ∈ before, isBlank c = true) ∧
    ∀ c ∈ after, isBlank c = true

/-- Parts that write the numbers, with commas between them. -/
def Lists (numbers : List Nat) (s : String) : Prop :=
  ∃ parts, s.toList = [','].intercalate parts ∧ List.Forall₂ Writes numbers parts

variable {n : Nat} {part : List Char} {side : UInt32}

theorem Writes.trim (h : Writes n part) : Numeral n (Text.trim part) := by
  obtain ⟨before, word, after, rfl, hw, hb, ha⟩ := h
  rwa [Text.trim_append hb ha hw.ne_nil]
  intro c hc
  rcases hw.digit_or_plus hc with hd | rfl
  · exact Text.isBlank_of_isDigit hd
  · rfl

theorem writes_iff : Writes n part ↔ Numeral n (Text.trim part) := by
  refine ⟨Writes.trim, fun h => ?_⟩
  obtain ⟨before, after, hp, hb, ha⟩ := Text.exists_trim part
  exact ⟨before, _, after, hp, h, hb, ha⟩

theorem Writes.comma_notMem (h : Writes n part) : ',' ∉ part := by
  obtain ⟨before, word, after, rfl, hw, hb, ha⟩ := h
  simp only [List.mem_append, not_or]
  refine ⟨⟨fun hc => ?_, fun hc => ?_⟩, fun hc => ?_⟩
  · exact absurd (hb ',' hc) (by decide)
  · exact absurd (hw.digit_or_plus hc) (by decide)
  · exact absurd (ha ',' hc) (by decide)

theorem comma_notMem_of_writes {numbers : List Nat} {parts : List (List Char)}
    (h : List.Forall₂ Writes numbers parts) : ∀ part ∈ parts, ',' ∉ part := by
  induction h with
  | nil => exact fun _ hp => (List.not_mem_nil hp).elim
  | cons hw _ ih => exact List.forall_mem_cons.2 ⟨hw.comma_notMem, ih⟩

theorem lists_iff {numbers : List Nat} (hn : numbers ≠ []) {s : String} :
    Lists numbers s ↔ List.Forall₂ Writes numbers (Text.splitAt ',' s.toList) := by
  constructor
  · rintro ⟨parts, hs, h⟩
    have hp : parts ≠ [] := fun e => hn (List.forall₂_nil_right_iff.1 (e ▸ h))
    rwa [hs, Text.splitAt_intercalate (comma_notMem_of_writes h) hp]
  · intro h
    exact ⟨_, (Text.intercalate_splitAt ',' s.toList).symm, h⟩

/-! ### Reading -/

theorem word?_eq_some {s : List Char} : word? s = some side ↔ Numeral side.toNat s := by
  rw [word?, Option.map_eq_some_iff]
  constructor
  · rintro ⟨n, hn, rfl⟩
    obtain ⟨hs, hb⟩ := Text.numberBelow?_eq_some.1 hn
    rwa [UInt32.toNat_ofNat_of_lt' hb]
  · intro hs
    exact ⟨side.toNat, Text.numberBelow?_eq_some.2 ⟨hs, side.toNat_lt⟩, UInt32.ofNat_toNat⟩

theorem words?_eq_some {parts : List (List Char)} {sides : List UInt32} :
    words? parts = some sides ↔ List.Forall₂ Writes (sides.map UInt32.toNat) parts := by
  induction parts generalizing sides with
  | nil =>
    rw [words?, Option.some.injEq, List.forall₂_nil_right_iff, List.map_eq_nil_iff, eq_comm]
  | cons part r ih =>
    simp only [words?, Option.bind_eq_some_iff, Option.map_eq_some_iff, word?_eq_some, ← writes_iff, ih]
    constructor
    · rintro ⟨side, hw, sides, hr, rfl⟩
      exact .cons hw hr
    · intro h
      cases sides with
      | nil => cases h
      | cons side sides =>
        obtain ⟨hw, hr⟩ := List.forall₂_cons.1 h
        exact ⟨side, hw, sides, hr, rfl⟩

theorem read?_eq_some {s : String} {t : Thickness} : read? s = some t ↔ Lists (t.sides.map UInt32.toNat) s := by
  rw [lists_iff (show t.sides.map UInt32.toNat ≠ [] from List.cons_ne_nil _ _), ← words?_eq_some, read?, readChars?]
  constructor
  · intro h
    split at h
    · rename_i hw
      cases h
      exact hw
    · cases h
  · intro h
    rw [h]
    rfl

/-! ### Writing -/

theorem toList_join (parts : List String) :
    (Text.join "," parts).toList = [','].intercalate (parts.map String.toList) := by
  induction parts with
  | nil => rfl
  | cons p r ih =>
    cases r with
    | nil => simp [Text.join]
    | cons q r => simp [Text.join, ih, List.intercalate]

theorem lists_write (t : Thickness) : Lists (t.sides.map UInt32.toNat) t.write := by
  refine ⟨(t.sides.map UInt32.toNat).map (Nat.toDigits 10), ?_, ?_⟩
  · rw [write, toList_join, List.map_map, List.map_map]
    refine congrArg _ (List.map_congr_left fun side _ => ?_)
    exact (congrArg String.toList Nat.toString_eq_ofList_toDigits).trans String.toList_ofList
  · rw [List.forall₂_map_right_iff]
    refine List.forall₂_same.2 fun n _ => ?_
    exact ⟨[], _, [], (List.append_nil _).symm, Text.numeral_toDigits n, nofun, nofun⟩

/-- What is written is read back. A text is read just if it is four numerals below 2³² with commas between them, each
with blanks around it or without, and then it gives the four numbers in the order of the sides. -/
theorem read?_iff_lists :
    (∀ t : Thickness, read? t.write = some t) ∧
      ∀ s : String,
        (∀ t : Thickness, read? s = some t ↔ Lists [t.left.toNat, t.top.toNat, t.right.toNat, t.bottom.toNat] s) ∧
          ((∃ t, read? s = some t) ↔
            ∃ left top right bottom, Lists [left, top, right, bottom] s ∧
              left < UInt32.size ∧ top < UInt32.size ∧ right < UInt32.size ∧ bottom < UInt32.size) := by
  refine ⟨fun t => read?_eq_some.2 (lists_write t), fun s => ⟨fun t => read?_eq_some, ?_⟩⟩
  constructor
  · rintro ⟨t, ht⟩
    exact ⟨_, _, _, _, read?_eq_some.1 ht, t.left.toNat_lt, t.top.toNat_lt, t.right.toNat_lt, t.bottom.toNat_lt⟩
  · rintro ⟨left, top, right, bottom, h, hl, ht, hr, hb⟩
    refine ⟨⟨.ofNat left, .ofNat top, .ofNat right, .ofNat bottom⟩, read?_eq_some.2 ?_⟩
    have toNat {n : Nat} (hn : n < UInt32.size) : (UInt32.ofNat n).toNat = n := UInt32.toNat_ofNat_of_lt' hn
    have hsides : [UInt32.ofNat left, .ofNat top, .ofNat right, .ofNat bottom].map UInt32.toNat =
        [left, top, right, bottom] := by
      simp only [List.map_cons, List.map_nil, toNat hl, toNat ht, toNat hr, toNat hb]
    exact hsides ▸ h

/-- Blanks, a plus sign and zeros in front are no harm. -/
example : read? " +5,\u00a02\t,007,4294967295" = some ⟨5, 2, 7, 4294967295⟩ ∧ read? "1,2,3,4294967296" = none := by
  decide

end Thickness

end XamlDoc
