import Mathlib.Data.List.Basic
import Mathlib.Data.List.Chain
import XamlDoc.Proofs.Markup.Events

/-!
# Verbatim content in sections

The sections of a verbatim text are the only ones without a terminator whose borders all lie inside a terminator of the
text. A reader that takes each written section up to its first terminator has exactly these sections, even if they
end with brackets right before it.
-/

namespace XamlDoc.Markup.Xml

/-! ### Borders between sections -/

/-- Sections that make up the text. None of them has a terminator in it, and each border between two of them is inside a
terminator of the text. -/
structure IsSectioning (s : List Char) (sections : List (List Char)) : Prop where
  ne_nil : sections ≠ []
  flatten_eq : sections.flatten = s
  safe : ∀ t ∈ sections, ¬ terminator <:+: t
  border : sections.IsChain fun a b => [']', ']'] <:+ a ∧ ['>'] <+: b

theorem isChain_shareTerminators (parts : List (List Char)) :
    (shareTerminators parts).IsChain fun a b => [']', ']'] <:+ a ∧ ['>'] <+: b := by
  fun_induction shareTerminators parts with
  | case1 => exact .nil
  | case2 part => exact .singleton part
  | case3 part next r ih =>
    obtain ⟨t, ts, ht⟩ := List.exists_cons_of_ne_nil (shareTerminators_ne_nil next r)
    rw [ht] at ih ⊢
    refine List.isChain_cons_cons.2 ⟨⟨List.suffix_append part _, List.prefix_append ['>'] t⟩, ?_⟩
    -- what the next section gets in front leaves its end as it was
    cases ts with
    | nil => exact .singleton _
    | cons u us =>
      obtain ⟨⟨hend, hfront⟩, hus⟩ := List.isChain_cons_cons.1 ih
      exact List.isChain_cons_cons.2 ⟨⟨hend.trans (List.suffix_cons '>' t), hfront⟩, hus⟩

theorem isSectioning_cdataChars (s : List Char) : IsSectioning s (cdataChars s) where
  ne_nil := cdataChars_ne_nil s
  flatten_eq := cdataChars_flatten s
  safe _ ht := not_infix_of_mem_cdataChars ht
  border := isChain_shareTerminators _

namespace IsSectioning

variable {s x y z : List Char} {a b : List (List Char)}

theorem tail (h : IsSectioning s (x :: z :: a)) : IsSectioning (z :: a).flatten (z :: a) where
  ne_nil := List.cons_ne_nil z a
  flatten_eq := rfl
  safe t ht := h.safe t (List.mem_cons_of_mem x ht)
  border := (List.isChain_cons_cons.1 h.border).2

theorem flatten_tail (h : IsSectioning s (x :: z :: a)) : ∃ e, (z :: a).flatten = '>' :: e := by
  obtain ⟨⟨-, e, rfl⟩, -⟩ := List.isChain_cons_cons.1 h.border
  exact ⟨e ++ a.flatten, rfl⟩

theorem first_eq_of_prefix (ha : IsSectioning s (x :: a)) (hb : IsSectioning s (y :: b)) (h : x <+: y) : x = y := by
  obtain ⟨e, rfl⟩ := h
  cases e with
  | nil => exact (List.append_nil x).symm
  | cons d e =>
    have hs : a.flatten = d :: e ++ b.flatten := by
      have hab := ha.flatten_eq.trans hb.flatten_eq.symm
      rw [List.flatten_cons, List.flatten_cons, List.append_assoc] at hab
      exact List.append_cancel_left hab
    cases a with
    | nil => cases hs
    | cons z a =>
      -- the longer section would go on beyond the border and have the terminator around it
      obtain ⟨u, hu⟩ := ha.flatten_tail
      obtain rfl : '>' = d := (List.cons.inj (hu.symm.trans hs)).1
      obtain ⟨⟨⟨p, rfl⟩, -⟩, -⟩ := List.isChain_cons_cons.1 ha.border
      have hin : terminator <:+: p ++ [']', ']'] ++ '>' :: e := ⟨p, e, by simp [terminator]⟩
      exact (hb.safe _ (List.mem_cons_self ..) hin).elim

theorem first_eq (ha : IsSectioning s (x :: a)) (hb : IsSectioning s (y :: b)) : x = y := by
  have hx : x <+: s := ⟨a.flatten, ha.flatten_eq⟩
  have hy : y <+: s := ⟨b.flatten, hb.flatten_eq⟩
  rcases List.prefix_or_prefix_of_prefix hx hy with h | h
  · exact ha.first_eq_of_prefix hb h
  · exact (hb.first_eq_of_prefix ha h).symm

theorem unique (ha : IsSectioning s a) (hb : IsSectioning s b) : a = b := by
  induction a generalizing s b with
  | nil => exact (ha.ne_nil rfl).elim
  | cons x a ih =>
    obtain ⟨y, b, rfl⟩ := List.exists_cons_of_ne_nil hb.ne_nil
    obtain rfl := ha.first_eq hb
    have hs : a.flatten = b.flatten := List.append_cancel_left (ha.flatten_eq.trans hb.flatten_eq.symm)
    refine congrArg (x :: ·) ?_
    match a, b with
    | [], [] => rfl
    | [], z :: b =>
      obtain ⟨e, he⟩ := hb.flatten_tail
      cases hs.trans he
    | z :: a, [] =>
      obtain ⟨e, he⟩ := ha.flatten_tail
      cases hs.symm.trans he
    | z :: a, u :: b => exact ih ha.tail (hs ▸ hb.tail)

end IsSectioning

theorem isSectioning_iff {s : List Char} {sections : List (List Char)} :
    IsSectioning s sections ↔ sections = cdataChars s :=
  ⟨fun h => h.unique (isSectioning_cdataChars s), fun h => h ▸ isSectioning_cdataChars s⟩

/-! ### Sections as strings -/

theorem map_toList_cdataSections (s : String) : (cdataSections s).map String.toList = cdataChars s.toList := by
  have hid : String.toList ∘ String.ofList = id := funext fun _ => String.toList_ofList
  rw [cdataSections, List.map_map, hid, List.map_id]

theorem mem_cdataSections {s t : String} : t ∈ cdataSections s ↔ t.toList ∈ cdataChars s.toList := by
  rw [← map_toList_cdataSections, List.mem_map_of_injective fun _ _ h => String.toList_inj.1 h]

theorem join_cdataSections (s : String) : String.join (cdataSections s) = s := by
  rw [← String.toList_inj, String.toList_join, List.flatMap_def, map_toList_cdataSections, cdataChars_flatten]

theorem isSectioning_toList_iff {s : String} {sections : List String} :
    IsSectioning s.toList (sections.map String.toList) ↔ sections = cdataSections s := by
  rw [isSectioning_iff, ← map_toList_cdataSections]
  exact (List.map_injective_iff.2 fun _ _ h => String.toList_inj.1 h).eq_iff

/-! ### Reading sections -/

def sectionStart : List Char := ['<', '!', '[', 'C', 'D', 'A', 'T', 'A', '[']

/-- The sections at the front of a text, each of them up to its first terminator, and what follows. -/
def readSections? (s : List Char) : Option (List String × List Char) :=
  if sectionStart <+: s then
    match _h : before? terminator (s.drop sectionStart.length) with
    | none => none
    | some (content, rest) => (readSections? rest).map fun p => (String.ofList content :: p.1, p.2)
  else some ([], s)
termination_by s.length
decreasing_by
  have hd : (s.drop sectionStart.length).length ≤ s.length := (List.drop_suffix _ s).length_le
  exact Nat.lt_of_lt_of_le (before?_length (List.cons_ne_nil _ _) _h) hd

theorem readSections?_of_not_start {s : List Char} (h : ¬ sectionStart <+: s) : readSections? s = some ([], s) := by
  rw [readSections?, if_neg h]

theorem readSections?_cdata {t : String} (h : Free terminator t.toList) (rest : List Char) :
    readSections? ((Event.cdata t).markup.toList ++ rest) = (readSections? rest).map fun p => (t :: p.1, p.2) := by
  have hm : (Event.cdata t).markup.toList ++ rest = sectionStart ++ (t.toList ++ (terminator ++ rest)) := by
    simp [Event.markup, String.toList_append, sectionStart, terminator]
  have hb : before? terminator ((sectionStart ++ (t.toList ++ (terminator ++ rest))).drop sectionStart.length) =
      some (t.toList, rest) := by
    rw [List.drop_left]
    exact before?_of_free (List.cons_ne_nil _ _) h rest
  rw [hm, readSections?, if_pos (List.prefix_append sectionStart _)]
  split
  · rename_i hn
    cases hb.symm.trans hn
  · rename_i hn
    cases hb.symm.trans hn
    rw [String.ofList_toList]

theorem readSections?_cdatas {sections : List String} (h : ∀ t ∈ sections, Free terminator t.toList)
    {rest : List Char} (hr : ¬ sectionStart <+: rest) :
    readSections? ((String.join (sections.map fun t => (Event.cdata t).markup)).toList ++ rest) =
      some (sections, rest) := by
  induction sections with
  | nil => exact readSections?_of_not_start hr
  | cons t r ih =>
    have ht := h t (List.mem_cons_self ..)
    have hn := ih fun u hu => h u (List.mem_cons_of_mem t hu)
    rw [List.map_cons, String.join_cons, String.toList_append, List.append_assoc, readSections?_cdata ht, hn]
    rfl

/-! ### Writing verbatim content -/

namespace TextWriter

theorem bytes_raw {w : TextWriter} (hw : w.Works) (content : String) :
    ∃ w', perform (.raw content) w = (.ok (), w') ∧
      w'.sink.bytes = w.flush.2.sink.bytes ++ (contentMarkup (.raw content)).toUTF8 := by
  refine ⟨_, perform_leaf hw (c := .raw content) trivial, ?_⟩
  rw [sink_wroteAll hw.flushed.unlimited, leafEvents, Layout.text_cdatas, flush_eq hw.unlimited, contentMarkup]

end TextWriter

open TextWriter (perform)

/-- The sections of a verbatim text make up the text, none of them has a terminator in it, and no others that are cut
inside terminators only do the same. A call writes them one after the other, whatever the layout and what is open, and
each up to its first terminator they are read again. -/
theorem readSections?_raw (content : String) :
    String.join (cdataSections content) = content ∧
      (∀ t ∈ cdataSections content, ¬ terminator <:+: t.toList) ∧
      (∀ sections : List String,
        IsSectioning content.toList (sections.map String.toList) ↔ sections = cdataSections content) ∧
      ∃ written : String,
        (∀ w : TextWriter, w.Works → ∃ w', perform (.raw content) w = (.ok (), w') ∧
          w'.sink.bytes = w.flush.2.sink.bytes ++ written.toUTF8) ∧
        ∀ rest, ¬ sectionStart <+: rest →
          readSections? (written.toList ++ rest) = some (cdataSections content, rest) := by
  refine ⟨join_cdataSections content, fun t ht => not_infix_of_mem_cdataChars (mem_cdataSections.1 ht),
    fun sections => isSectioning_toList_iff, contentMarkup (.raw content),
    fun w hw => TextWriter.bytes_raw hw content, fun rest hr => ?_⟩
  rw [contentMarkup]
  exact readSections?_cdatas (fun t ht => free_of_mem_cdataChars (mem_cdataSections.1 ht)) hr

/-- Terminators side by side, with brackets before the first and after the last, behind a start tag held back. -/
theorem readSections?_raw_brackets :
    let w := (perform (.element "Label") (.new .unlimited (.indented 2))).2
    cdataSections "]]]>>]]>]]>a]]" = ["]]]", ">>]]", ">]]", ">a]]"] ∧
      ∃ (written : String) (w' : TextWriter), perform (.raw "]]]>>]]>]]>a]]") w = (.ok (), w') ∧
        w'.sink.bytes = w.flush.2.sink.bytes ++ written.toUTF8 ∧
        readSections? (written.toList ++ "</Label>".toList) =
          some (["]]]", ">>]]", ">]]", ">a]]"], "</Label>".toList) := by
  intro w
  have hs : cdataSections "]]]>>]]>]]>a]]" = ["]]]", ">>]]", ">]]", ">a]]"] := by decide +kernel
  obtain ⟨-, -, -, written, hw, hr⟩ := readSections?_raw "]]]>>]]>]]>a]]"
  obtain ⟨w', hp, hb⟩ := hw w ⟨rfl, rfl⟩
  exact ⟨hs, written, w', hp, hb, hs ▸ hr _ (by decide +kernel)⟩

end XamlDoc.Markup.Xml
