import XamlDoc.Markup.Xml.Cdata
import XamlDoc.Markup.Xml.Comment

/-!
# Text up to a delimiter

A reader takes verbatim content up to the first `]]>`, a comment up to the first `-->` and a value up to the
first quote. Sections and comment texts as they are written hold no delimiter, nor do they complete
one with the characters that follow, so they are taken whole.
-/

namespace XamlDoc.Markup.Xml

/-- The characters before the first occurrence of a delimiter, and those after it. -/
def before? (stop : List Char) : List Char → Option (List Char × List Char)
  | [] => none
  | c :: r =>
    if stop <+: c :: r then some ([], (c :: r).drop stop.length)
    else (before? stop r).map fun p => (c :: p.1, p.2)

/-- No occurrence of the delimiter begins in the text, even with the delimiter right after it. -/
def Free (stop s : List Char) : Prop :=
  ∀ t rest, t ≠ [] → t <:+ s → ¬ stop <+: t ++ (stop ++ rest)

theorem Free.suffix {stop s t : List Char} (h : Free stop s) (ht : t <:+ s) : Free stop t :=
  fun u rest hu hs => h u rest hu (hs.trans ht)

theorem before?_of_free {stop s : List Char} (hne : stop ≠ []) (h : Free stop s) (rest : List Char) :
    before? stop (s ++ (stop ++ rest)) = some (s, rest) := by
  induction s with
  | nil =>
    obtain ⟨c, r, rfl⟩ := List.exists_cons_of_ne_nil hne
    simp [before?]
  | cons c r ih =>
    have hn : ¬ stop <+: c :: (r ++ (stop ++ rest)) :=
      h (c :: r) rest (List.cons_ne_nil c r) (List.suffix_refl _)
    have hr : before? stop (r ++ (stop ++ rest)) = some (r, rest) :=
      ih (h.suffix (List.suffix_cons c r))
    rw [List.cons_append, before?, if_neg hn, hr]
    rfl

theorem eq_append_of_before? {stop s a rest : List Char} (h : before? stop s = some (a, rest)) :
    s = a ++ (stop ++ rest) := by
  induction s generalizing a with
  | nil => cases h
  | cons c r ih =>
    rw [before?] at h
    split at h
    · rename_i hs
      cases h
      exact (List.prefix_iff_eq_append.1 hs).symm
    · obtain ⟨p, hp, he⟩ := Option.map_eq_some_iff.1 h
      cases he
      exact congrArg (c :: ·) (ih hp)

theorem before?_length {stop s a rest : List Char} (hne : stop ≠ []) (h : before? stop s = some (a, rest)) :
    rest.length < s.length := by
  have hs : 0 < stop.length := List.length_pos_iff.2 hne
  rw [eq_append_of_before? h]
  simp only [List.length_append]
  omega

theorem free_singleton {c : Char} {s : List Char} (h : c ∉ s) : Free [c] s := by
  intro t rest ht hs hp
  obtain ⟨d, r, rfl⟩ := List.exists_cons_of_ne_nil ht
  have hd : c = d := (List.cons_prefix_cons.1 hp).1
  exact h (hs.subset (hd ▸ List.mem_cons_self ..))

/-! ### Sections -/

def terminator : List Char := [']', ']', '>']

/-- An occurrence of the terminator can not begin in a text and end in the terminator after it. -/
theorem free_terminator {s : List Char} (h : ¬ terminator <:+: s) : Free terminator s := by
  intro t rest ht hs hp
  match t, ht with
  | [a], _ => simp [terminator] at hp
  | [a, b], _ => simp [terminator] at hp
  | a :: b :: c :: r, _ =>
    have ha : terminator <+: a :: b :: c :: r := by
      simp only [terminator, List.cons_append, List.cons_prefix_cons] at hp ⊢
      exact ⟨hp.1, hp.2.1, hp.2.2.1, List.nil_prefix⟩
    exact h (ha.isInfix.trans hs.isInfix)

/-- Put together again with a terminator between each two, the parts are the text; none of them has a
terminator in it. -/
theorem terminatorParts_spec (s : List Char) :
    ∃ part parts, terminatorParts s = part :: parts ∧ s = part ++ parts.flatMap (terminator ++ ·) ∧
      ∀ p ∈ part :: parts, ¬ terminator <:+: p := by
  fun_induction terminatorParts s with
  | case1 => exact ⟨[], [], rfl, rfl, by simp [terminator]⟩
  | case2 r ih =>
    obtain ⟨part, parts, he, hs, hn⟩ := ih
    refine ⟨[], part :: parts, by rw [he], ?_, fun p hp => ?_⟩
    · rw [List.nil_append, List.flatMap_cons, List.append_assoc, ← hs]
      rfl
    · rcases List.mem_cons.1 hp with rfl | hp
      · simp [terminator]
      · exact hn p hp
  | case3 c r hc he ih =>
    obtain ⟨part, parts, hp, -⟩ := ih
    rw [he] at hp
    cases hp
  | case4 c r hc part parts he ih =>
    obtain ⟨part', parts', hp, hs, hn⟩ := ih
    rw [he] at hp
    cases hp
    refine ⟨c :: part, parts, rfl, by rw [List.cons_append, ← hs], fun p hp => ?_⟩
    rcases List.mem_cons.1 hp with rfl | hp
    · intro hi
      rcases List.infix_cons_iff.1 hi with hi | hi
      · -- a terminator at the front of the part would be one at the front of the text
        obtain ⟨t, ht⟩ := hi
        obtain ⟨hc', ht'⟩ := List.cons.inj ht
        refine hc (t ++ parts.flatMap (terminator ++ ·)) hc'.symm ?_
        rw [hs, ← ht']
        rfl
      · exact hn part (List.mem_cons_self ..) hi
    · exact hn p (List.mem_cons_of_mem _ hp)

theorem shareTerminators_ne_nil (part : List Char) (parts : List (List Char)) :
    shareTerminators (part :: parts) ≠ [] := by
  cases parts <;> simp [shareTerminators]

theorem shareTerminators_flatten (part : List Char) (parts : List (List Char)) :
    (shareTerminators (part :: parts)).flatten = part ++ parts.flatMap (terminator ++ ·) := by
  induction parts generalizing part with
  | nil => simp [shareTerminators]
  | cons next r ih =>
    obtain ⟨s, ss, hs⟩ := List.exists_cons_of_ne_nil (shareTerminators_ne_nil next r)
    have hn := ih next
    rw [hs] at hn
    simp only [shareTerminators, hs, List.flatten_cons] at hn ⊢
    rw [List.cons_append, hn]
    simp [terminator]

/-- A share of the terminators around a part adds no terminator to it. -/
theorem not_infix_append {p : List Char} (h : ¬ terminator <:+: p) : ¬ terminator <:+: p ++ [']', ']'] := by
  induction p with
  | nil => simp [terminator, List.infix_cons_iff]
  | cons c r ih =>
    rw [List.infix_cons_iff, not_or] at h
    rw [List.cons_append, List.infix_cons_iff, not_or]
    refine ⟨fun hp => h.1 ?_, ih h.2⟩
    match r, hp with
    | [], hp => simp [terminator] at hp
    | [a], hp => simp [terminator] at hp
    | a :: b :: t, hp => simpa [terminator] using hp

theorem not_infix_cons {p : List Char} (h : ¬ terminator <:+: p) : ¬ terminator <:+: '>' :: p := by
  rw [List.infix_cons_iff, not_or]
  exact ⟨by simp [terminator], h⟩

theorem not_infix_shareTerminators (parts : List (List Char)) (h : ∀ p ∈ parts, ¬ terminator <:+: p) :
    ∀ s ∈ shareTerminators parts, ¬ terminator <:+: s := by
  fun_induction shareTerminators parts with
  | case1 => exact fun s hs => (List.not_mem_nil hs).elim
  | case2 part => exact h
  | case3 part next r ih =>
    obtain ⟨s', ss, hn⟩ := List.exists_cons_of_ne_nil (shareTerminators_ne_nil next r)
    have hr := ih fun p hp => h p (List.mem_cons_of_mem part hp)
    rw [hn] at hr ⊢
    intro s hs
    rcases List.mem_cons.1 hs with rfl | hs
    · exact not_infix_append (h part (List.mem_cons_self ..))
    · rcases List.mem_cons.1 hs with rfl | hs
      · exact not_infix_cons (hr s' (List.mem_cons_self ..))
      · exact hr s (List.mem_cons_of_mem _ hs)

theorem cdataChars_flatten (s : List Char) : (cdataChars s).flatten = s := by
  obtain ⟨part, parts, he, hs, -⟩ := terminatorParts_spec s
  rw [cdataChars, he, shareTerminators_flatten, ← hs]

theorem cdataChars_ne_nil (s : List Char) : cdataChars s ≠ [] := by
  obtain ⟨part, parts, he, -, -⟩ := terminatorParts_spec s
  rw [cdataChars, he]
  exact shareTerminators_ne_nil part parts

theorem not_infix_of_mem_cdataChars {s t : List Char} (h : t ∈ cdataChars s) : ¬ terminator <:+: t := by
  obtain ⟨part, parts, he, -, hn⟩ := terminatorParts_spec s
  rw [cdataChars, he] at h
  exact not_infix_shareTerminators _ hn _ h

theorem free_of_mem_cdataChars {s t : List Char} (h : t ∈ cdataChars s) : Free terminator t :=
  free_terminator (not_infix_of_mem_cdataChars h)

/-! ### Comments -/

def commentEnd : List Char := ['-', '-', '>']

theorem adjacentDashes_eq_zero_iff (s : List Char) : adjacentDashes s = 0 ↔ ¬ ['-', '-'] <:+: s := by
  fun_induction adjacentDashes s with
  | case1 r ih => simp [List.infix_cons_iff]
  | case2 c r hr ih =>
    have hp : ¬ ['-', '-'] <+: c :: r := by
      rintro ⟨t, ht⟩
      obtain ⟨rfl, rfl⟩ := List.cons.inj ht
      exact hr t rfl rfl
    rw [ih, List.infix_cons_iff, or_iff_right hp]
  | case3 => simp

theorem adjacentDashes_spread (s : List Char) : adjacentDashes (spread s) = 0 := by
  fun_induction spread s with
  | case1 s h => exact h
  | case2 s h ih => exact ih

/-- A text that may stand in a comment: no dash has another dash after it or ends the text. -/
structure IsCommentText (s : List Char) : Prop where
  no_pair : ¬ ['-', '-'] <:+: s
  no_dash_at_end : s.getLast? ≠ some '-'

theorem free_commentEnd {s : List Char} (h : IsCommentText s) : Free commentEnd s := by
  intro t rest ht hs hp
  match t, ht with
  | [a], _ =>
    obtain ⟨u, rfl⟩ := hs
    obtain rfl : '-' = a := (List.cons_prefix_cons.1 hp).1
    exact h.no_dash_at_end List.getLast?_concat
  | a :: b :: r, _ =>
    have hd : ['-', '-'] <+: a :: b :: r := by
      simp only [commentEnd, List.cons_append, List.cons_prefix_cons] at hp ⊢
      exact ⟨hp.1, hp.2.1, List.nil_prefix⟩
    exact h.no_pair (hd.isInfix.trans hs.isInfix)

theorem adjacentDashes_append_blank (s : List Char) :
    adjacentDashes (s ++ [' ']) = adjacentDashes s := by
  fun_induction adjacentDashes s with
  | case1 r ih => exact congrArg (· + 1) ih
  | case2 c r hr ih =>
    by_cases hc : c = '-'
    · subst hc
      match r with
      | [] => rfl
      | d :: u =>
        have hd : d ≠ '-' := fun e => hr u rfl (e ▸ rfl)
        rw [List.cons_append, List.cons_append, adjacentDashes_dash_cons hd, ← ih,
          List.cons_append, adjacentDashes_cons hd]
    · rw [List.cons_append, adjacentDashes_cons hc, ih]
  | case3 => rfl

theorem isCommentText_commentChars (s : List Char) : IsCommentText (commentChars s) := by
  have h := adjacentDashes_spread s
  rw [commentChars]
  split
  · refine ⟨(adjacentDashes_eq_zero_iff _).1 (by rw [adjacentDashes_append_blank, h]), ?_⟩
    rw [List.getLast?_concat]
    simp
  · rename_i hl
    exact ⟨(adjacentDashes_eq_zero_iff _).1 h, hl⟩

theorem free_commentChars (s : List Char) : Free commentEnd (commentChars s) :=
  free_commentEnd (isCommentText_commentChars s)

end XamlDoc.Markup.Xml
