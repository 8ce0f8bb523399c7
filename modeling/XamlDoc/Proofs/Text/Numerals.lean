import Mathlib.Data.List.Basic
import Mathlib.Data.List.TakeWhile
import XamlDoc.Text.Blank
import XamlDoc.Text.Scan
import XamlDoc.Text.Scripted
import XamlDoc.Text.Split

/-!
# Numerals

Cuts and trimmed texts are told by how the text is put together, and the numbers in texts by their decimal digits.
-/

namespace XamlDoc.Text

/-! ### Cuts -/

theorem splitAt_eq_splitOn (sep : Char) (s : List Char) : splitAt sep s = s.splitOn sep := by
  induction s with
  | nil => rfl
  | cons c r ih =>
    rw [splitAt, List.splitOn_cons_eq_if_modifyHead, ih]
    simp only [beq_iff_eq]
    split
    · rfl
    · cases hs : r.splitOn sep with
      | nil => exact absurd hs (List.splitOn_ne_nil sep r)
      | cons part parts => rfl

theorem intercalate_splitAt (sep : Char) (s : List Char) : [sep].intercalate (splitAt sep s) = s := by
  rw [splitAt_eq_splitOn]
  exact List.intercalate_splitOn sep

theorem splitAt_intercalate {sep : Char} {parts : List (List Char)} (hs : ∀ part ∈ parts, sep ∉ part)
    (hn : parts ≠ []) : splitAt sep ([sep].intercalate parts) = parts := by
  rw [splitAt_eq_splitOn]
  exact List.splitOn_intercalate sep hs hn

/-! ### Trimmed texts -/

variable {before word after : List Char}

theorem exists_trim (s : List Char) :
    ∃ before after, s = before ++ trim s ++ after ∧ (∀ c ∈ before, isBlank c = true) ∧
      ∀ c ∈ after, isBlank c = true := by
  let r := s.dropWhile isBlank
  have hr : trim s ++ (r.reverse.takeWhile isBlank).reverse = r := by
    rw [trim, ← List.reverse_append, List.takeWhile_append_dropWhile, List.reverse_reverse]
  refine ⟨s.takeWhile isBlank, (r.reverse.takeWhile isBlank).reverse, ?_, fun c hc => List.mem_takeWhile_imp hc,
    fun c hc => List.mem_takeWhile_imp (List.mem_reverse.1 hc)⟩
  rw [List.append_assoc, hr, List.takeWhile_append_dropWhile]

theorem dropWhile_blanks (hb : ∀ c ∈ before, isBlank c = true) (hn : word ≠ []) (hw : ∀ c ∈ word, isBlank c = false) :
    (before ++ word ++ after).dropWhile isBlank = word ++ after := by
  rw [List.append_assoc, List.dropWhile_append_of_pos hb]
  cases word with
  | nil => exact absurd rfl hn
  | cons c w => exact List.dropWhile_cons_of_neg (by simp [hw c (List.mem_cons_self ..)])

theorem trim_append (hb : ∀ c ∈ before, isBlank c = true) (ha : ∀ c ∈ after, isBlank c = true) (hn : word ≠ [])
    (hw : ∀ c ∈ word, isBlank c = false) : trim (before ++ word ++ after) = word := by
  have hback : (after.reverse ++ word.reverse ++ []).dropWhile isBlank = word.reverse ++ [] :=
    dropWhile_blanks (fun c hc => ha c (List.mem_reverse.1 hc)) (by simpa using hn)
      fun c hc => hw c (List.mem_reverse.1 hc)
  rw [List.append_nil, List.append_nil] at hback
  rw [trim, dropWhile_blanks hb hn hw, List.reverse_append, hback, List.reverse_reverse]

/-! ### Digits -/

theorem range_of_isDigit {c : Char} (h : c.isDigit = true) : 48 ≤ c.toNat ∧ c.toNat ≤ 57 := by
  simp only [Char.isDigit, Bool.and_eq_true, decide_eq_true_eq] at h
  exact h

theorem isBlank_of_isDigit {c : Char} (h : c.isDigit = true) : isBlank c = false := by
  have hr := range_of_isDigit h
  simp only [isBlank, Bool.or_eq_false_iff, Bool.and_eq_false_iff, decide_eq_false_iff_not, beq_eq_false_iff_ne]
  omega

theorem decimalValue_eq {digits : List Char} (h : ∀ c ∈ digits, c.isDigit = true) :
    decimalValue digits = Nat.ofDigitChars 10 digits 0 := by
  rw [decimalValue, digitsValue, Nat.ofDigitChars_eq_foldl]
  refine List.foldl_ext _ _ _ fun n c hc => ?_
  rw [hexDigit?, if_pos (h c hc), Option.getD_some, Nat.mul_comm]

/-- The text is decimal digits that write `n`, with a plus sign in front or without. -/
def Numeral (n : Nat) (s : List Char) : Prop :=
  ∃ digits, (s = digits ∨ s = '+' :: digits) ∧ digits ≠ [] ∧ (∀ c ∈ digits, c.isDigit = true) ∧
    Nat.ofDigitChars 10 digits 0 = n

theorem Numeral.ne_nil {n : Nat} {s : List Char} (h : Numeral n s) : s ≠ [] := by
  obtain ⟨digits, rfl | rfl, hn, -⟩ := h
  · exact hn
  · exact List.cons_ne_nil _ _

theorem Numeral.digit_or_plus {n : Nat} {s : List Char} (h : Numeral n s) {c : Char} (hc : c ∈ s) :
    c.isDigit = true ∨ c = '+' := by
  obtain ⟨digits, rfl | rfl, -, hd, -⟩ := h
  · exact .inl (hd c hc)
  · exact (List.mem_cons.1 hc).symm.imp_left (hd c)

theorem numeral_toDigits (n : Nat) : Numeral n (Nat.toDigits 10 n) :=
  ⟨_, .inl rfl, Nat.toDigits_ne_nil, fun _ hc => Nat.isDigit_of_mem_toDigits (by decide) (by decide) hc,
    Nat.ofDigitChars_ten_toDigits⟩

/-- The text without a plus sign in front. -/
def unsigned : List Char → List Char
  | '+' :: r => r
  | r => r

theorem unsigned_of_digits {digits : List Char} (h : ∀ c ∈ digits, c.isDigit = true) : unsigned digits = digits := by
  unfold unsigned
  split
  · exact absurd (h '+' (List.mem_cons_self ..)) (by decide)
  · rfl

theorem eq_unsigned (s : List Char) : s = unsigned s ∨ s = '+' :: unsigned s := by
  unfold unsigned
  split
  · exact .inr rfl
  · exact .inl rfl

theorem numeral_iff {n : Nat} {s : List Char} :
    Numeral n s ↔ unsigned s ≠ [] ∧ (∀ c ∈ unsigned s, c.isDigit = true) ∧
      Nat.ofDigitChars 10 (unsigned s) 0 = n := by
  refine ⟨fun ⟨digits, hs, h⟩ => ?_, fun h => ⟨unsigned s, eq_unsigned s, h⟩⟩
  have hu : unsigned s = digits := by
    rcases hs with rfl | rfl
    · exact unsigned_of_digits h.2.1
    · rfl
  rwa [hu]

theorem toString_ne_empty (n : Nat) : toString n ≠ "" := by
  rw [Nat.toString_eq_ofList_toDigits]
  exact fun h => Nat.toDigits_ne_nil (String.ofList_inj.1 h)

theorem numberBelow?_eq_some {bound n : Nat} {s : List Char} :
    numberBelow? bound s = some n ↔ Numeral n s ∧ n < bound := by
  have hs : numberBelow? bound s =
      if (unsigned s).isEmpty || !(unsigned s).all Char.isDigit then none
      else if decimalValue (unsigned s) < bound then some (decimalValue (unsigned s)) else none := rfl
  rw [hs, numeral_iff]
  by_cases hd : unsigned s ≠ [] ∧ ∀ c ∈ unsigned s, c.isDigit = true
  · rw [if_neg (by simpa using hd), decimalValue_eq hd.2, Option.ite_none_right_eq_some, Option.some.injEq]
    constructor
    · rintro ⟨hb, rfl⟩
      exact ⟨⟨hd.1, hd.2, rfl⟩, hb⟩
    · rintro ⟨⟨-, -, rfl⟩, hb⟩
      exact ⟨hb, rfl⟩
  · rw [if_pos (by simpa [imp_iff_not_or] using hd)]
    exact iff_of_false nofun fun h => hd ⟨h.1.1, h.1.2.1⟩

/-! ### Raised numerals -/

/-- The character whose raised form it is. -/
def unraise (c : Char) : Char := ((raisedForms.map Prod.swap).lookup c).getD c

theorem unraise_raise {c : Char} (h : c.isDigit = true) : unraise (raise c) = c := by
  have digits : ∀ n < 10, unraise (raise (Char.ofNat (48 + n))) = Char.ofNat (48 + n) := by decide +kernel
  obtain ⟨hl, hu⟩ := range_of_isDigit h
  have hc := digits (c.toNat - 48) (by omega)
  rwa [Nat.add_sub_cancel' hl, Char.ofNat_toNat] at hc

/-- Different numbers are raised to different texts. -/
theorem superscript_toString_inj {m n : Nat} (h : superscript (toString m) = superscript (toString n)) : m = n := by
  have lowered (n : Nat) : (superscript (toString n)).toList.map unraise = Nat.toDigits 10 n := by
    rw [superscript, Nat.toString_eq_ofList_toDigits, String.toList_map, String.toList_ofList, List.map_map]
    refine (List.map_congr_left fun c hc => ?_).trans (List.map_id _)
    exact unraise_raise (Nat.isDigit_of_mem_toDigits (by decide) (by decide) hc)
  calc m = Nat.ofDigitChars 10 (Nat.toDigits 10 m) 0 := Nat.ofDigitChars_ten_toDigits.symm
    _ = Nat.ofDigitChars 10 (Nat.toDigits 10 n) 0 := by rw [← lowered, h, lowered]
    _ = n := Nat.ofDigitChars_ten_toDigits

end XamlDoc.Text
