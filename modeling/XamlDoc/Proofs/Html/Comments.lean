import XamlDoc.Proofs.Html.Yields
import XamlDoc.Proofs.Markup.Comment

/-!
# Comments in HTML

The text of a comment has its pairs of dashes spread apart in one pass only, so a run of three dashes or more leaves a
pair. The comment ends early where such a run has an odd number of dashes and the rest of a terminator follows.
-/

namespace XamlDoc

namespace Markup.Xml

variable {stop s : List Char}

/-! ### Terminators after one pass over dashes -/

theorem prefix_spreadOnce (h : '-' ∉ stop) : stop <+: spreadOnce s ↔ stop <+: s := by
  induction stop generalizing s with
  | nil => simp
  | cons c stop ih =>
    obtain ⟨hc, hs⟩ := not_or.1 (List.mem_cons.not.1 h)
    fun_cases spreadOnce s with
    | case1 r => simp [Ne.symm hc]
    | case2 d r hd =>
      rw [List.cons_prefix_cons, List.cons_prefix_cons]
      exact and_congr_right fun _ => ih hs
    | case3 => simp

theorem dash_cons_prefix_spreadOnce {c : Char} (hc : c ≠ '-') (hb : c ≠ ' ') (h : '-' ∉ stop) :
    '-' :: c :: stop <+: spreadOnce s ↔ '-' :: c :: stop <+: s := by
  have hn : '-' ∉ c :: stop := fun hm => (List.mem_cons.1 hm).elim (fun e => hc e.symm) h
  fun_cases spreadOnce s with
  | case1 r => simp [hc, hb]
  | case2 d r hd =>
    rw [List.cons_prefix_cons, List.cons_prefix_cons]
    exact and_congr_right fun _ => prefix_spreadOnce hn
  | case3 => simp

/-- A run of an odd number of dashes, at least three, before the rest of a terminator. -/
def OddRun (rest s : List Char) : Prop :=
  ∃ before k after, s = before ++ (List.replicate (2 * k + 3) '-' ++ (rest ++ after)) ∧ before.getLast? ≠ some '-'

namespace OddRun

variable {rest : List Char}

theorem cons {c : Char} {r : List Char} (h : OddRun rest r) (hc : c = '-' → ¬ ['-'] <+: r) : OddRun rest (c :: r) := by
  obtain ⟨before, k, after, rfl, hb⟩ := h
  refine ⟨c :: before, k, after, rfl, ?_⟩
  cases before with
  | nil =>
    intro he
    exact hc (Option.some.inj he) ⟨_, rfl⟩
  | cons d t => rwa [List.getLast?_cons_cons]

theorem pair_cons {r : List Char} (h : OddRun rest r) : OddRun rest ('-' :: '-' :: r) := by
  obtain ⟨before, k, after, rfl, hb⟩ := h
  cases before with
  | nil => exact ⟨[], k + 1, after, rfl, hb⟩
  | cons c t => exact ⟨'-' :: '-' :: c :: t, k, after, rfl, hb⟩

theorem three (after : List Char) : OddRun rest ('-' :: '-' :: '-' :: (rest ++ after)) :=
  ⟨[], 0, after, rfl, by simp⟩

end OddRun

theorem spreadOnce_append {a : List Char} (h : a.getLast? ≠ some '-') (b : List Char) :
    spreadOnce (a ++ b) = spreadOnce a ++ spreadOnce b := by
  fun_induction spreadOnce a with
  | case1 r ih =>
    cases r with
    | nil => exact (h rfl).elim
    | cons d t =>
      have ht := ih (by rwa [List.getLast?_cons_cons, List.getLast?_cons_cons] at h)
      simp only [List.cons_append, spreadOnce] at ht ⊢
      rw [ht]
  | case2 c r hr ih =>
    cases r with
    | nil =>
      have hc : c ≠ '-' := fun e => h (congrArg some e)
      exact spreadOnce_cons hc b
    | cons d t =>
      have ht := ih (by rwa [List.getLast?_cons_cons] at h)
      have hstep : spreadOnce (c :: (d :: t ++ b)) = c :: spreadOnce (d :: t ++ b) := by
        rw [spreadOnce]
        rintro u rfl he
        exact hr t rfl (congrArg (· :: t) (List.cons.inj he).1)
      rw [List.cons_append, hstep, ht, List.cons_append]
  | case3 => rfl

/-- The last dash of an odd run is next to the one before it. -/
theorem spreadOnce_odd (k : Nat) {x : List Char} (hx : ¬ ['-'] <+: x) :
    ['-', '-'] ++ spreadOnce x <:+ spreadOnce (List.replicate (2 * k + 3) '-' ++ x) := by
  induction k with
  | zero =>
    have hlast : spreadOnce ('-' :: x) = '-' :: spreadOnce x := by
      rw [spreadOnce]
      rintro t - rfl
      exact hx ⟨t, rfl⟩
    exact ⟨['-', ' '], by simp [List.replicate_succ, spreadOnce, hlast]⟩
  | succ k ih =>
    have hstep : spreadOnce (List.replicate (2 * (k + 1) + 3) '-' ++ x) =
        ['-', ' ', '-'] ++ spreadOnce (List.replicate (2 * k + 3) '-' ++ x) := by
      rw [show 2 * (k + 1) + 3 = 2 * k + 3 + 1 + 1 by omega, List.replicate_succ, List.replicate_succ]
      rfl
    rw [hstep]
    exact ih.trans (List.suffix_append ..)

/-- After one pass there is a terminator where there was an odd run of dashes with the rest of the terminator. -/
theorem infix_spreadOnce_iff {c : Char} {rest : List Char} (hc : c ≠ '-') (hb : c ≠ ' ') (hr : '-' ∉ rest)
    (s : List Char) : '-' :: '-' :: c :: rest <:+: spreadOnce s ↔ OddRun (c :: rest) s := by
  constructor
  · intro h
    fun_induction spreadOnce s with
    | case1 r ih =>
      have hblank : '-' ≠ ' ' := by decide
      simp only [List.infix_cons_iff, List.cons_prefix_cons, hblank, false_and, and_false, false_or, true_and] at h
      rcases h with h | h
      · obtain ⟨after, rfl⟩ := (dash_cons_prefix_spreadOnce hc hb hr).1 h
        exact .three after
      · exact (ih h).pair_cons
    | case2 d r hd ih =>
      have hnext : d = '-' → ¬ ['-'] <+: r := by
        rintro he ⟨t, ht⟩
        exact hd t he ht.symm
      refine OddRun.cons (ih ?_) hnext
      simp only [List.infix_cons_iff, List.cons_prefix_cons] at h
      rcases h with ⟨rfl, h⟩ | h
      · -- a dash that begins a terminator would have another one after it
        have hdash : ['-'] <+: spreadOnce r := (List.prefix_append ['-'] (c :: rest)).trans h
        exact (hnext rfl (dash_prefix_spreadOnce.1 hdash)).elim
      · exact h
    | case3 => simp at h
  · rintro ⟨before, k, after, rfl, hl⟩
    have hx : ¬ ['-'] <+: c :: rest ++ after := fun h => hc (List.cons_prefix_cons.1 h).1.symm
    have hn : '-' ∉ c :: rest := fun hm => (List.mem_cons.1 hm).elim (fun e => hc e.symm) hr
    have hkept : c :: rest <+: spreadOnce (c :: rest ++ after) := (prefix_spreadOnce hn).2 (List.prefix_append ..)
    have hend : ['-', '-'] ++ (c :: rest) <:+: ['-', '-'] ++ spreadOnce (c :: rest ++ after) :=
      ((List.prefix_append_right_inj _).2 hkept).isInfix
    rw [spreadOnce_append hl]
    exact hend.trans ((spreadOnce_odd k hx).trans (List.suffix_append ..)).isInfix

/-! ### Text up to a terminator -/

theorem not_infix_of_before? {a rest : List Char} (hne : stop ≠ []) (h : before? stop s = some (a, rest)) :
    ¬ stop <:+: a := by
  induction s generalizing a with
  | nil => cases h
  | cons c r ih =>
    have ha : a <+: c :: r := ⟨_, (eq_append_of_before? h).symm⟩
    rw [before?] at h
    split at h
    · cases h
      exact fun hi => hne (List.infix_nil.1 hi)
    · rename_i hn
      obtain ⟨p, hp, he⟩ := Option.map_eq_some_iff.1 h
      cases he
      rw [List.infix_cons_iff, not_or]
      exact ⟨fun hi => hn (hi.trans ha), ih hp⟩

/-- A blank after the text keeps its end from being a part of a terminator. -/
theorem free_concat_blank (h : ¬ commentEnd <:+: s) : Free commentEnd (s ++ [' ']) := by
  intro t rest ht hs hp
  rcases List.suffix_concat_iff.1 hs with rfl | ⟨u, rfl, hu⟩
  · exact ht rfl
  rw [List.append_assoc] at hp
  have hin : commentEnd <+: u := by
    rcases List.prefix_or_prefix_of_prefix hp (List.prefix_append u _) with hin | ⟨y, hy⟩
    · exact hin
    · cases y with
      | nil => exact ⟨[], by rw [← hy]; simp⟩
      | cons c y =>
        rw [← hy, List.prefix_append_right_inj] at hp
        obtain rfl : c = ' ' := (List.cons_prefix_cons.1 hp).1
        have hblank : ' ' ∈ commentEnd := hy ▸ List.mem_append_right u (List.mem_cons_self ..)
        exact absurd hblank (by decide)
  exact h (hin.isInfix.trans hu.isInfix)

theorem before?_commentEnd (s rest : List Char) :
    before? commentEnd (s ++ [' '] ++ (commentEnd ++ rest)) = some (s ++ [' '], rest) ↔ ¬ commentEnd <:+: s := by
  constructor
  · intro h hi
    exact not_infix_of_before? (by decide) h (hi.trans (List.prefix_append ..).isInfix)
  · exact fun h => before?_of_free (by decide) (free_concat_blank h) rest

end Markup.Xml

namespace Html

open Markup.Xml (commentEnd before? OddRun)

/-- The text of the comment at the front of HTML text, and what follows the comment. -/
def comment? : List Char → Option (List Char × List Char)
  | '<' :: '!' :: '-' :: '-' :: r => before? commentEnd r
  | _ => none

theorem infix_commentText {c : Char} {rest : List Char} (hc : c ≠ '-') (hb : c ≠ ' ') (hr : '-' ∉ rest)
    (text : String) : '-' :: '-' :: c :: rest <:+: (commentText text).toList ↔ OddRun (c :: rest) text.toList := by
  rw [commentText, String.toList_ofList]
  exact Markup.Xml.infix_spreadOnce_iff hc hb hr _

theorem comment?_markup (text : String) (rest : List Char) :
    comment? ((Fragment.comment text).markup.toList ++ rest) =
      some ((" " ++ commentText text ++ " ").toList, rest) ↔ ¬ OddRun ['>'] text.toList := by
  have hm : (Fragment.comment text).markup.toList ++ rest =
      '<' :: '!' :: '-' :: '-' :: (' ' :: (commentText text).toList ++ [' '] ++ (commentEnd ++ rest)) := by
    simp [Fragment.markup, commentEnd]
  have hw : (" " ++ commentText text ++ " ").toList = ' ' :: (commentText text).toList ++ [' '] := by simp
  have hblank : ¬ commentEnd <+: ' ' :: (commentText text).toList := by simp [commentEnd]
  have hodd : commentEnd <:+: (commentText text).toList ↔ OddRun ['>'] text.toList :=
    infix_commentText (by decide) (by decide) (by decide) text
  rw [hm, hw, comment?, Markup.Xml.before?_commentEnd, List.infix_cons_iff, or_iff_right hblank, hodd]

/-- A comment block becomes one comment. There is a pair of dashes in its text where the lines put together have three
in a row, and a terminator where they have an odd run of dashes with the rest of the terminator. Read back, whatever
comes after it, it is the comment that was written just if no odd run has a `>` after it. -/
theorem commentBlock_markup (s : Scope) (lines : List String) (t : Traversal) (ht : t.stops = false) :
    let text := (Text.join " " lines).toList
    ∃ l written, node s (.commentBlock lines) t = .ok (l, t.tick) ∧ markupAll l = "<!-- " ++ written ++ " -->" ∧
      (['-', '-'] <:+: written.toList ↔ ['-', '-', '-'] <:+: text) ∧
      (['-', '-', '>'] <:+: written.toList ↔ OddRun ['>'] text) ∧
      (['-', '-', '!', '>'] <:+: written.toList ↔ OddRun ['!', '>'] text) ∧
      ∀ rest, comment? ((markupAll l).toList ++ rest) = some ((" " ++ written ++ " ").toList, rest) ↔
        ¬ OddRun ['>'] text := by
  intro text
  have hn : node s (.commentBlock lines) t = .ok ([.comment (Text.join " " lines)], t.tick) := by
    rw [node, visit_apply, ht]
    rfl
  have hm : markupAll [.comment (Text.join " " lines)] = (Fragment.comment (Text.join " " lines)).markup := by
    rw [markupAll, markupAll, String.append_empty]
  refine ⟨_, commentText (Text.join " " lines), hn, by rw [hm, Fragment.markup], ?_,
    infix_commentText (by decide) (by decide) (by decide) _, infix_commentText (by decide) (by decide) (by decide) _,
    fun rest => ?_⟩
  · rw [commentText, String.toList_ofList]
    exact Markup.Xml.pair_infix_spreadOnce _
  · rw [hm]
    exact comment?_markup _ rest

def escapingScope : Scope := ⟨none, .plain, .ofNodes [.commentBlock ["---><b>"]], fun _ => none, fun _ => pure []⟩

/-- A pair of dashes at the end of a line is in no run with those of the next line, as there is a blank in between. -/
theorem commentBlock_markup_lines : ∃ l written,
    node escapingScope (.commentBlock ["a --", "--> b"]) (.start none) = .ok (l, (Traversal.start none).tick) ∧
      markupAll l = "<!-- " ++ written ++ " -->" ∧
      ∀ rest, comment? ((markupAll l).toList ++ rest) = some ((" " ++ written ++ " ").toList, rest) := by
  obtain ⟨l, written, hn, hm, -, -, -, hread⟩ :=
    commentBlock_markup escapingScope ["a --", "--> b"] (.start none) rfl
  have hodd : ¬ OddRun ['>'] (Text.join " " ["a --", "--> b"]).toList := by
    have hw : ¬ commentEnd <:+: Markup.Xml.spreadOnce (Text.join " " ["a --", "--> b"]).toList := by
      decide +kernel
    exact (Markup.Xml.infix_spreadOnce_iff (by decide) (by decide) (by decide) _).not.1 hw
  exact ⟨l, written, hn, hm, fun rest => (hread rest).2 hodd⟩

/-- Three dashes with a `>` after them end the comment, and what follows is HTML of the label. -/
theorem commentBlock_ends_early : ∃ l,
    nodes escapingScope escapingScope.document.nodes (.start none) = .ok (l, (Traversal.start none).tick) ∧
      markupAll l = "<!-- - --><b> -->" ∧ comment? (markupAll l).toList = some (" - ".toList, "<b> -->".toList) :=
  ⟨_, rfl, by decide +kernel, by decide +kernel⟩

end Html

end XamlDoc
