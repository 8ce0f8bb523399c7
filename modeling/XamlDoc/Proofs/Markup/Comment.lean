import Mathlib.Logic.Function.Iterate
import Mathlib.Tactic.Tauto
import XamlDoc.Proofs.Markup.Delimiter

/-!
# Comment text without pairs of dashes

Two passes over the dashes are enough for every text, since the first one leaves runs of two at most. What they
make of the text has a closed form, a blank after each dash with another dash or the end after it, and no
text that may stand in a comment and has the same characters in it is shorter.
-/

namespace XamlDoc.Markup.Xml

variable {s t : List Char}

/-! ### One pass over dashes -/

theorem headD_spreadOnce (s : List Char) (d : Char) : (spreadOnce s).headD d = s.headD d := by
  fun_cases spreadOnce s <;> rfl

theorem dash_prefix_spreadOnce : ['-'] <+: spreadOnce s ↔ ['-'] <+: s := by
  fun_cases spreadOnce s <;> simp

theorem not_pair_prefix_spreadOnce (s : List Char) : ¬ ['-', '-'] <+: spreadOnce s := by
  fun_cases spreadOnce s with
  | case1 r => simp
  | case2 c r hr =>
    rw [List.cons_prefix_cons, dash_prefix_spreadOnce]
    rintro ⟨rfl, t, ht⟩
    exact hr t rfl ht.symm
  | case3 => simp

theorem pair_infix_spreadOnce (s : List Char) : ['-', '-'] <:+: spreadOnce s ↔ ['-', '-', '-'] <:+: s := by
  fun_induction spreadOnce s with
  | case1 r ih =>
    have hpair : ['-', '-'] <+: r → ['-'] <+: r := (List.prefix_append ['-'] ['-']).trans
    have hblank : '-' ≠ ' ' := by decide
    simp only [List.infix_cons_iff, List.cons_prefix_cons, dash_prefix_spreadOnce, ih, hblank, false_and, and_false,
      false_or, true_and]
    tauto
  | case2 c r hr ih =>
    by_cases hc : c = '-'
    · subst hc
      have hn : ¬ ['-'] <+: r := by
        rintro ⟨t, ht⟩
        exact hr t rfl ht.symm
      have hpair : ['-', '-'] <+: r → ['-'] <+: r := (List.prefix_append ['-'] ['-']).trans
      simp only [List.infix_cons_iff, List.cons_prefix_cons, dash_prefix_spreadOnce, ih]
      tauto
    · have hd : '-' ≠ c := fun e => hc e.symm
      simp only [List.infix_cons_iff, List.cons_prefix_cons, ih, hd, false_and, false_or]
  | case3 => simp

theorem not_triple_infix_spreadOnce (s : List Char) : ¬ ['-', '-', '-'] <:+: spreadOnce s := by
  fun_induction spreadOnce s with
  | case1 r ih => simp [List.infix_cons_iff, not_pair_prefix_spreadOnce r, ih]
  | case2 c r hr ih => simp [List.infix_cons_iff, not_pair_prefix_spreadOnce r, ih]
  | case3 => simp

theorem spreadOnce_of_no_pair (h : ¬ ['-', '-'] <:+: s) : spreadOnce s = s := by
  fun_induction spreadOnce s with
  | case1 r => exact (h (List.prefix_append ['-', '-'] r).isInfix).elim
  | case2 c r hr ih => rw [ih fun hi => h (List.infix_cons hi)]
  | case3 => rfl

/-! ### Passes until no pair is left -/

theorem not_pair_infix_spreadOnce_spreadOnce (s : List Char) : ¬ ['-', '-'] <:+: spreadOnce (spreadOnce s) :=
  (pair_infix_spreadOnce _).not.2 (not_triple_infix_spreadOnce s)

theorem spread_spreadOnce (s : List Char) : spread (spreadOnce s) = spread s := by
  by_cases h : adjacentDashes s = 0
  · rw [spreadOnce_of_no_pair ((adjacentDashes_eq_zero_iff s).1 h)]
  · rw [spread.eq_1 s, dif_neg h]

theorem exists_spread_eq_iterate (s : List Char) :
    ∃ n, spread s = spreadOnce^[n] s ∧ ∀ m, ['-', '-'] <:+: spreadOnce^[m] s ↔ m < n := by
  fun_induction spread s with
  | case1 s h =>
    have hs := (adjacentDashes_eq_zero_iff s).1 h
    refine ⟨0, rfl, fun m => ?_⟩
    rw [Function.iterate_fixed (spreadOnce_of_no_pair hs)]
    exact iff_of_false hs (Nat.not_lt_zero m)
  | case2 s h ih =>
    obtain ⟨n, hn, hm⟩ := ih
    refine ⟨n + 1, hn, fun m => ?_⟩
    cases m with
    | zero => exact iff_of_true (not_not.1 ((adjacentDashes_eq_zero_iff s).not.1 h)) n.succ_pos
    | succ m => rw [Function.iterate_succ_apply, hm, Nat.succ_lt_succ_iff]

/-! ### The text in closed form -/

/-- A blank after every dash that has another dash after it or ends the text, and no other change. -/
def dashesApart : List Char → List Char
  | [] => []
  | c :: r => if c = '-' ∧ r.headD '-' = '-' then c :: ' ' :: dashesApart r else c :: dashesApart r

theorem dashesApart_cons_congr (c : Char) {r u : List Char} (hd : r.headD '-' = u.headD '-')
    (h : dashesApart r = dashesApart u) : dashesApart (c :: r) = dashesApart (c :: u) := by
  rw [dashesApart, dashesApart, hd, h]

/-- A pass puts blanks only where they belong. -/
theorem dashesApart_spreadOnce (s : List Char) : dashesApart (spreadOnce s) = dashesApart s := by
  fun_induction spreadOnce s with
  | case1 r ih =>
    have hr := dashesApart_cons_congr '-' (headD_spreadOnce r '-') ih
    have hpair : dashesApart ('-' :: '-' :: r) = '-' :: ' ' :: dashesApart ('-' :: r) := by
      rw [dashesApart, if_pos (by simp)]
    rw [dashesApart, if_neg (by simp), dashesApart, if_neg (by simp), hr, hpair]
  | case2 c r hr ih => exact dashesApart_cons_congr c (headD_spreadOnce r '-') ih
  | case3 => rfl

theorem dashesApart_spread (s : List Char) : dashesApart (spread s) = dashesApart s := by
  fun_induction spread s with
  | case1 s h => rfl
  | case2 s h ih => rw [ih, dashesApart_spreadOnce]

theorem dashesApart_of_no_pair (h : ¬ ['-', '-'] <:+: s) :
    dashesApart s = if s.getLast? = some '-' then s ++ [' '] else s := by
  induction s with
  | nil => rfl
  | cons c r ih =>
    have hr := ih fun hi => h (List.infix_cons hi)
    cases r with
    | nil => by_cases hc : c = '-' <;> simp [dashesApart, hc]
    | cons d u =>
      have hcd : ¬ (c = '-' ∧ (d :: u).headD '-' = '-') := by
        rintro ⟨rfl, hd⟩
        obtain rfl : d = '-' := hd
        exact h (List.prefix_append ['-', '-'] u).isInfix
      rw [dashesApart, if_neg hcd, hr, List.getLast?_cons_cons]
      split <;> rfl

theorem commentChars_eq_dashesApart (s : List Char) : commentChars s = dashesApart s := by
  have h := (adjacentDashes_eq_zero_iff _).1 (adjacentDashes_spread s)
  rw [← dashesApart_spread, dashesApart_of_no_pair h]
  rfl

/-! ### Texts that may stand in a comment -/

namespace IsCommentText

theorem suffix (h : IsCommentText s) (ht : t <:+ s) : IsCommentText t := by
  obtain ⟨a, rfl⟩ := ht
  refine ⟨fun hi => h.no_pair (hi.trans (List.suffix_append a t).isInfix), fun hl => ?_⟩
  exact h.no_dash_at_end (by rw [List.getLast?_append, hl]; rfl)

theorem of_dash_cons (h : IsCommentText ('-' :: s)) : ∃ c r, s = c :: r ∧ c ≠ '-' := by
  cases s with
  | nil => exact (h.no_dash_at_end rfl).elim
  | cons c r =>
    refine ⟨c, r, rfl, ?_⟩
    rintro rfl
    exact h.no_pair (List.prefix_append ['-', '-'] r).isInfix

end IsCommentText

theorem commentChars_eq_self_iff (s : List Char) : commentChars s = s ↔ IsCommentText s := by
  constructor
  · intro h
    exact h ▸ isCommentText_commentChars s
  · intro h
    rw [commentChars_eq_dashesApart, dashesApart_of_no_pair h.no_pair, if_neg h.no_dash_at_end]

theorem exists_cons_suffix_of_sublist {c : Char} {r : List Char} (h : (c :: r).Sublist t) :
    ∃ u, c :: u <:+ t ∧ r.Sublist u := by
  obtain ⟨a, b, rfl, hc, hb⟩ := List.cons_sublist_iff.1 h
  obtain ⟨x, y, rfl⟩ := List.append_of_mem hc
  exact ⟨y ++ b, ⟨x, by simp⟩, hb.trans (List.sublist_append_right y b)⟩

theorem length_dashesApart_le (h : s.Sublist t) (ht : IsCommentText t) : (dashesApart s).length ≤ t.length := by
  induction s generalizing t with
  | nil => exact Nat.zero_le _
  | cons c r ih =>
    obtain ⟨u, hu, hr⟩ := exists_cons_suffix_of_sublist h
    have hcu := ht.suffix hu
    have hlen := hu.length_le
    rw [dashesApart]
    split
    · rename_i hc
      obtain ⟨rfl, hd⟩ := hc
      obtain ⟨d, v, rfl, hdash⟩ := hcu.of_dash_cons
      -- the longer text has a character after the dash that stands for none of the shorter one
      have hv : r.Sublist v := by
        cases r with
        | nil => exact List.nil_sublist v
        | cons e r' =>
          obtain rfl : e = '-' := hd
          cases hr with
          | cons _ hv => exact hv
          | cons_cons => exact (hdash rfl).elim
      have hle := ih hv (hcu.suffix ((List.suffix_cons d v).trans (List.suffix_cons '-' _)))
      simp only [List.length_cons] at hlen ⊢
      omega
    · have hle := ih hr (hcu.suffix (List.suffix_cons c u))
      simp only [List.length_cons] at hlen ⊢
      omega

/-! ### Strings -/

theorem commentText_toList (s : String) : (commentText s).toList = commentChars s.toList := String.toList_ofList

theorem commentText_eq_self_iff (s : String) : commentText s = s ↔ IsCommentText s.toList := by
  rw [← commentChars_eq_self_iff, ← commentText_toList, String.toList_inj]

/-- The passes over the dashes of a comment come to an end, after the first one with one more at most. The text may then
stand in a comment, it is the given one with a blank after each dash that has another dash or the end after it, and
no shorter text would do. Only a text that may stand in a comment is left as it is, and so nothing changes the second
time. -/
theorem commentText_eq_dashesApart (s : String) :
    (∃ n ≤ 1, spread s.toList = spreadOnce^[n] (spreadOnce s.toList) ∧
      ∀ m, ['-', '-'] <:+: spreadOnce^[m] (spreadOnce s.toList) ↔ m < n) ∧
      IsCommentText (commentText s).toList ∧
      (commentText s).toList = dashesApart s.toList ∧
      (∀ t, s.toList.Sublist t → IsCommentText t → (commentText s).toList.length ≤ t.length) ∧
      (commentText s = s ↔ IsCommentText s.toList) ∧
      commentText (commentText s) = commentText s := by
  have hs : (commentText s).toList = dashesApart s.toList := by
    rw [commentText_toList, commentChars_eq_dashesApart]
  have htext : IsCommentText (commentText s).toList :=
    (commentText_toList s).symm ▸ isCommentText_commentChars s.toList
  obtain ⟨n, hn, hm⟩ := exists_spread_eq_iterate (spreadOnce s.toList)
  rw [spread_spreadOnce] at hn
  have hone : n ≤ 1 := Nat.not_lt.1 ((hm 1).not.1 (not_pair_infix_spreadOnce_spreadOnce s.toList))
  refine ⟨⟨n, hone, hn, hm⟩, htext, hs, fun t h ht => ?_, commentText_eq_self_iff s,
    (commentText_eq_self_iff _).2 htext⟩
  rw [hs]
  exact length_dashesApart_le h ht

/-- Other characters between the dashes and after them need as much room as the blanks. -/
theorem commentText_eq_dashesApart_run : (commentText "a---").toList = "a- - - ".toList ∧
    "a---".toList.Sublist "a-b-c-d".toList ∧ IsCommentText "a-b-c-d".toList ∧
    (commentText "a---").toList.length ≤ "a-b-c-d".toList.length := by
  obtain ⟨-, -, hs, hmin, -, -⟩ := commentText_eq_dashesApart "a---"
  have hsub : "a---".toList.Sublist "a-b-c-d".toList := by decide
  have htext : IsCommentText "a-b-c-d".toList := ⟨by decide +kernel, by decide⟩
  refine ⟨?_, hsub, htext, hmin _ hsub htext⟩
  rw [hs]
  decide

end XamlDoc.Markup.Xml
