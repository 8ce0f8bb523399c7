import XamlDoc.Footnote.Nested
import XamlDoc.Proofs.Footnote.Basic

/-!
# What a scan numbers

The scan of a footnote looks through all footnotes that can be reached from it by references that
expand. It numbers a footnote for a plain reference met on the way, and for a reference that
expands if it is met when its footnote has been looked through already, which is from the second time
on. What has been scanned before does not matter.
-/

namespace XamlDoc

namespace Footnotes

def links (t : Footnotes) (key : String) : List FootnoteLink :=
  match t.get? key with
  | none => []
  | some f => Node.footnoteLinks f.content

/-- References that expand lead from one footnote to the other. -/
inductive Reaches (t : Footnotes) (key : String) : String → Prop where
  | refl : Reaches t key key
  | step {middle last : String} : Reaches t key middle → ⟨last, true⟩ ∈ t.links middle →
    t.Declares last → Reaches t key last

theorem Reaches.trans {t : Footnotes} {a b c : String} (hab : t.Reaches a b) (hbc : t.Reaches b c) :
    t.Reaches a c := by
  induction hbc with
  | refl => exact hab
  | step _ hl hd ih => exact ih.step hl hd

/-- The references met by a scan of some links that looks through the footnotes `new`. -/
def met (t : Footnotes) (l : List FootnoteLink) (new : List String) : List FootnoteLink :=
  l ++ new.flatMap t.links

/-- A scan that meets the references `m`, when the footnotes `old` have been looked through before,
numbers the footnote. -/
def Numbers (t : Footnotes) (old : List String) (m : List FootnoteLink) (key : String) : Prop :=
  t.Declares key ∧ (⟨key, false⟩ ∈ m ∨ (key ∈ old ∧ ⟨key, true⟩ ∈ m) ∨ 2 ≤ m.count ⟨key, true⟩)

/-- What a scan of the links `l` from `s` to `s'` has done when it has looked through `new`. -/
structure Scanned (t : Footnotes) (l : List FootnoteLink) (s s' : Scan) (new : List String) : Prop where
  expanded : s'.expanded = new ++ s.expanded
  nodup : s'.expanded.Nodup
  declares : ∀ key ∈ new, t.Declares key
  reached : ∀ key ∈ new, ∃ first, ⟨first, true⟩ ∈ l ∧ t.Declares first ∧ t.Reaches first key
  met : ∀ key ∈ new, ⟨key, true⟩ ∈ t.met l new
  complete : ∀ key, ⟨key, true⟩ ∈ t.met l new → t.Declares key → key ∈ s'.expanded
  grows : s.numbering.keys <+: s'.numbering.keys
  numbered : ∀ key, key ∈ s'.numbering.keys ↔
    key ∈ s.numbering.keys ∨ t.Numbers s.expanded (t.met l new) key

variable {t : Footnotes}

namespace Scanned

theorem nil {s : Scan} (hs : s.expanded.Nodup) : t.Scanned [] s s [] where
  expanded := rfl
  nodup := hs
  declares _ h := (List.not_mem_nil h).elim
  reached _ h := (List.not_mem_nil h).elim
  met _ h := (List.not_mem_nil h).elim
  complete _ h := (List.not_mem_nil h).elim
  grows := List.prefix_rfl
  numbered key := by simp [Footnotes.met, Numbers]

theorem met_append (a b : List FootnoteLink) (l m : List String) :
    (t.met (a ++ b) (m ++ l)).Perm (t.met a l ++ t.met b m) := by
  rw [List.perm_iff_count]
  intro link
  simp only [Footnotes.met, List.flatMap_append, List.count_append]
  omega

theorem append {a b : List FootnoteLink} {s s' s'' : Scan} {l m : List String}
    (ha : t.Scanned a s s' l) (hb : t.Scanned b s' s'' m) : t.Scanned (a ++ b) s s'' (m ++ l) := by
  have hp : (t.met (a ++ b) (m ++ l)).Perm (t.met a l ++ t.met b m) := met_append a b l m
  have hmem (link : FootnoteLink) : link ∈ t.met (a ++ b) (m ++ l) ↔ link ∈ t.met a l ∨ link ∈ t.met b m :=
    hp.mem_iff.trans List.mem_append
  have hcount (link : FootnoteLink) : (t.met (a ++ b) (m ++ l)).count link =
      (t.met a l).count link + (t.met b m).count link := by
    rw [hp.count_eq, List.count_append]
  have hold (key : String) (h : key ∈ s'.expanded) : key ∈ s''.expanded := by
    rw [hb.expanded]
    exact List.mem_append_right m h
  constructor
  · rw [hb.expanded, ha.expanded, List.append_assoc]
  · exact hb.nodup
  · exact fun key h => (List.mem_append.1 h).elim (hb.declares key) (ha.declares key)
  · intro key h
    rcases List.mem_append.1 h with h | h
    · obtain ⟨first, hl, hr⟩ := hb.reached key h
      exact ⟨first, List.mem_append_right a hl, hr⟩
    · obtain ⟨first, hl, hr⟩ := ha.reached key h
      exact ⟨first, List.mem_append_left b hl, hr⟩
  · intro key h
    rw [hmem]
    exact (List.mem_append.1 h).elim (fun h => .inr (hb.met key h)) fun h => .inl (ha.met key h)
  · intro key h hd
    rw [hmem] at h
    exact h.elim (fun h => hold key (ha.complete key h hd)) fun h => hb.complete key h hd
  · exact ha.grows.trans hb.grows
  · intro key
    have hnew : key ∈ s'.expanded ↔ key ∈ l ∨ key ∈ s.expanded := by
      rw [ha.expanded, List.mem_append]
    have hmet : key ∈ l → 0 < (t.met a l).count ⟨key, true⟩ := fun h =>
      List.count_pos_iff.2 (ha.met key h)
    have hfound : 0 < (t.met a l).count ⟨key, true⟩ → t.Declares key → key ∈ s'.expanded := fun h =>
      ha.complete key (List.count_pos_iff.1 h)
    have hpos (m : List FootnoteLink) : (⟨key, true⟩ : FootnoteLink) ∈ m ↔ 0 < m.count ⟨key, true⟩ :=
      List.count_pos_iff.symm
    simp only [hb.numbered, ha.numbered, Numbers, hmem ⟨key, false⟩, hpos, hcount]
    generalize (t.met a l).count ⟨key, true⟩ = i at *
    generalize (t.met b m).count ⟨key, true⟩ = j at *
    grind

theorem numbers_singleton {old : List String} {link : FootnoteLink} {key : String} :
    t.Numbers old (t.met [link] []) key ↔
      t.Declares key ∧ key = link.key ∧ (link.autoExpand = true → key ∈ old) := by
  have hc : ¬ 2 ≤ (t.met [link] []).count ⟨key, true⟩ := fun h =>
    absurd (Nat.le_trans h List.count_le_length) (Nat.not_le_of_lt Nat.one_lt_two)
  have hm (other : FootnoteLink) : other ∈ t.met [link] [] ↔ other = link := by
    simp [Footnotes.met]
  rw [Numbers, hm, hm]
  rcases link with ⟨k, autoExpand⟩
  cases autoExpand <;> simp [hc, and_comm]

theorem skip {link : FootnoteLink} {s : Scan} (hs : s.expanded.Nodup) (hd : ¬ t.Declares link.key) :
    t.Scanned [link] s s [] where
  expanded := rfl
  nodup := hs
  declares _ h := (List.not_mem_nil h).elim
  reached _ h := (List.not_mem_nil h).elim
  met _ h := (List.not_mem_nil h).elim
  complete key h hk := by
    rcases List.mem_singleton.1 h with rfl
    exact (hd hk).elim
  grows := List.prefix_rfl
  numbered key := by
    refine ⟨.inl, fun h => h.elim id fun h => ?_⟩
    obtain ⟨hk, rfl, -⟩ := numbers_singleton.1 h
    exact (hd hk).elim

theorem number {link : FootnoteLink} {s : Scan} (hs : s.expanded.Nodup) (hd : t.Declares link.key)
    (he : link.autoExpand = true → link.key ∈ s.expanded) :
    t.Scanned [link] s { s with numbering := s.numbering.add link.key } [] where
  expanded := rfl
  nodup := hs
  declares _ h := (List.not_mem_nil h).elim
  reached _ h := (List.not_mem_nil h).elim
  met _ h := (List.not_mem_nil h).elim
  complete key h hk := by
    rcases List.mem_singleton.1 h with rfl
    exact he rfl
  grows := Numbering.prefix_add
  numbered key := by
    rw [Numbering.mem_add, numbers_singleton]
    refine or_congr_right ⟨fun h => ?_, fun h => h.2.1⟩
    subst h
    exact ⟨hd, rfl, he⟩

theorem expand {key : String} {s s' : Scan} {new : List String} (hd : t.Declares key)
    (hn : key ∉ s.expanded)
    (h : t.Scanned (t.links key) { s with expanded := key :: s.expanded } s' new) :
    t.Scanned [⟨key, true⟩] s s' (new ++ [key]) := by
  -- what is met is the reference itself and what is met in the footnote, in another order
  have hp : (t.met [⟨key, true⟩] (new ++ [key])).Perm (⟨key, true⟩ :: t.met (t.links key) new) := by
    rw [List.perm_iff_count]
    intro link
    simp only [Footnotes.met, List.flatMap_append, List.count_append, List.count_cons, List.count_nil,
      List.flatMap_singleton]
    omega
  have hmem (link : FootnoteLink) : link ∈ t.met [⟨key, true⟩] (new ++ [key]) ↔
      link = ⟨key, true⟩ ∨ link ∈ t.met (t.links key) new := hp.mem_iff.trans List.mem_cons
  have hself : key ∈ s'.expanded := by
    rw [h.expanded]
    exact List.mem_append_right new (List.mem_cons_self ..)
  constructor
  · rw [h.expanded, List.append_assoc]
    rfl
  · exact h.nodup
  · intro k hk
    rcases List.mem_append.1 hk with hk | hk
    · exact h.declares k hk
    · rw [List.mem_singleton.1 hk]
      exact hd
  · intro k hk
    refine ⟨key, List.mem_singleton_self _, hd, ?_⟩
    rcases List.mem_append.1 hk with hk | hk
    · obtain ⟨first, hl, hf, hr⟩ := h.reached k hk
      exact (Reaches.refl.step hl hf).trans hr
    · rw [List.mem_singleton.1 hk]
      exact .refl
  · intro k hk
    rw [hmem]
    rcases List.mem_append.1 hk with hk | hk
    · exact .inr (h.met k hk)
    · exact .inl (by rw [List.mem_singleton.1 hk])
  · intro k hk hdk
    rcases (hmem _).1 hk with hk | hk
    · cases hk
      exact hself
    · exact h.complete k hk hdk
  · exact h.grows
  · intro k
    have hpos (m : List FootnoteLink) : (⟨k, true⟩ : FootnoteLink) ∈ m ↔ 0 < m.count ⟨k, true⟩ :=
      List.count_pos_iff.symm
    have hcount : (t.met [⟨key, true⟩] (new ++ [key])).count ⟨k, true⟩ =
        (t.met (t.links key) new).count ⟨k, true⟩ + if key = k then 1 else 0 := by
      rw [hp.count_eq, List.count_cons]
      simp
    rw [h.numbered]
    simp only [Numbers, hmem ⟨k, false⟩, hpos, hcount, List.mem_cons]
    generalize (t.met (t.links key) new).count ⟨k, true⟩ = i
    grind

end Scanned

/-! ### The scan of a footnote -/

theorem scan_cons (levels : Nat) (link : FootnoteLink) (r : List FootnoteLink) (s : Scan) :
    t.scan (levels + 1) (link :: r) s = t.scan (levels + 1) r (t.scan (levels + 1) [link] s) := by
  simp only [scan, List.foldl_cons, List.foldl_nil]

/-- One link is scanned, if the content of its footnote is. -/
theorem exists_scanned_link {levels : Nat} {link : FootnoteLink} {s : Scan} (hn : s.expanded.Nodup)
    (hx : t.Declares link.key → link.key ∉ s.expanded →
      let inside : Scan := { s with expanded := link.key :: s.expanded }
      ∃ new, t.Scanned (t.links link.key) inside (t.scan levels (t.links link.key) inside) new) :
    ∃ new, t.Scanned [link] s (t.scan (levels + 1) [link] s) new := by
  rcases link with ⟨key, autoExpand⟩
  simp only [scan, List.foldl_cons, List.foldl_nil]
  cases hf : t.get? key with
  | none =>
    refine ⟨[], .skip hn fun h => ?_⟩
    rw [Declares, hf] at h
    cases h
  | some f =>
    have hk : t.Declares key := declares_of_get? hf
    have hlinks : t.links key = Node.footnoteLinks f.content := by rw [links, hf]
    by_cases he : (autoExpand && !s.expanded.contains key) = true
    · simp only [he, if_true]
      simp only [Bool.and_eq_true, Bool.not_eq_true', List.contains_eq_mem,
        decide_eq_false_iff_not] at he
      obtain ⟨rfl, hnew⟩ := he
      obtain ⟨new, h⟩ := hx hk hnew
      rw [hlinks] at h
      exact ⟨new ++ [key], Scanned.expand hk hnew (hlinks ▸ h)⟩
    · simp only [he]
      have hold : autoExpand = true → key ∈ s.expanded := by simpa using he
      exact ⟨[], .number hn hk hold⟩

/-- The footnotes looked through are different and declared, so with the levels left a scan never has to
number a footnote that it could look through. -/
theorem exists_scanned (levels : Nat) (l : List FootnoteLink) (s : Scan) (hn : s.expanded.Nodup)
    (hd : ∀ key ∈ s.expanded, t.Declares key) (hl : t.distinct < levels + s.expanded.length) :
    ∃ new, t.Scanned l s (t.scan levels l s) new := by
  induction levels generalizing l s with
  | zero =>
    have hle := length_le_distinct hn hd
    omega
  | succ levels ih =>
    induction l generalizing s with
    | nil => exact ⟨[], .nil hn⟩
    | cons link r ihr =>
      obtain ⟨new, hs⟩ := exists_scanned_link hn fun hk hnew =>
        ih (t.links link.key) { s with expanded := link.key :: s.expanded }
          (List.nodup_cons.2 ⟨hnew, hn⟩)
          (fun key h => (List.mem_cons.1 h).elim (fun h => h ▸ hk) (hd key))
          (by rw [List.length_cons]; omega)
      have hd' : ∀ key ∈ (t.scan (levels + 1) [link] s).expanded, t.Declares key := by
        intro key hk
        rw [hs.expanded] at hk
        exact (List.mem_append.1 hk).elim (hs.declares key) (hd key)
      have hlen : s.expanded.length ≤ (t.scan (levels + 1) [link] s).expanded.length := by
        rw [hs.expanded, List.length_append]
        omega
      obtain ⟨more, hr⟩ := ihr _ hs.nodup hd' (by omega)
      rw [scan_cons]
      exact ⟨more ++ new, hs.append hr⟩

/-! ### What a scan records -/

/-- On the ways from a footnote, two references meet that expand the other. -/
def MeetsTwice (t : Footnotes) (key other : String) : Prop :=
  (∃ source, t.Reaches key source ∧ 2 ≤ (t.links source).count ⟨other, true⟩) ∨
    ∃ source source', source ≠ source' ∧ t.Reaches key source ∧ t.Reaches key source' ∧
      ⟨other, true⟩ ∈ t.links source ∧ ⟨other, true⟩ ∈ t.links source'

/-- The scan of the footnote `key` numbers the other: for a plain reference, for one that leads back to
`key`, or because it has been looked through when it is met again. -/
def Records (t : Footnotes) (key other : String) : Prop :=
  t.Declares other ∧
    ((∃ source, t.Reaches key source ∧ ⟨other, false⟩ ∈ t.links source) ∨
      (other = key ∧ ∃ source, t.Reaches key source ∧ ⟨other, true⟩ ∈ t.links source) ∨
      t.MeetsTwice key other)

theorem two_le_count_flatMap {α β : Type} [DecidableEq β] {l : List α} (hn : l.Nodup) {f : α → List β}
    {b : β} : 2 ≤ (l.flatMap f).count b ↔
      (∃ a ∈ l, 2 ≤ (f a).count b) ∨ ∃ a ∈ l, ∃ a' ∈ l, a ≠ a' ∧ b ∈ f a ∧ b ∈ f a' := by
  induction l with
  | nil => simp
  | cons a r ih =>
    obtain ⟨ha, hr⟩ := List.nodup_cons.1 hn
    have hpos : b ∈ f a ↔ 0 < (f a).count b := List.count_pos_iff.symm
    have hrest : (∃ a' ∈ r, b ∈ f a') ↔ 0 < (r.flatMap f).count b := by
      rw [List.count_pos_iff, List.mem_flatMap]
    rw [List.flatMap_cons, List.count_append]
    constructor
    · intro h
      by_cases h1 : 2 ≤ (f a).count b
      · exact .inl ⟨a, List.mem_cons_self .., h1⟩
      by_cases h2 : 2 ≤ (r.flatMap f).count b
      · rcases (ih hr).1 h2 with ⟨a', h', hc⟩ | ⟨c, hc, d, hd, h'⟩
        · exact .inl ⟨a', List.mem_cons_of_mem a h', hc⟩
        · exact .inr ⟨c, List.mem_cons_of_mem a hc, d, List.mem_cons_of_mem a hd, h'⟩
      · obtain ⟨a', h', hb⟩ := hrest.2 (by omega)
        refine .inr ⟨a, List.mem_cons_self .., a', List.mem_cons_of_mem a h', ?_, hpos.2 (by omega), hb⟩
        exact fun e => ha (e ▸ h')
    · rintro (⟨a', h', hc⟩ | ⟨c, hc, d, hd, hne, hbc, hbd⟩)
      · rcases List.mem_cons.1 h' with rfl | h'
        · omega
        · have h2 := (ih hr).2 (.inl ⟨a', h', hc⟩)
          omega
      · rcases List.mem_cons.1 hc with hca | hcr <;> rcases List.mem_cons.1 hd with hda | hdr
        · exact (hne (hca.trans hda.symm)).elim
        · have h1 := hpos.1 (hca ▸ hbc)
          have h2 := hrest.1 ⟨d, hdr, hbd⟩
          omega
        · have h1 := hpos.1 (hda ▸ hbd)
          have h2 := hrest.1 ⟨c, hcr, hbc⟩
          omega
        · have h2 := (ih hr).2 (.inr ⟨c, hcr, d, hdr, hne, hbc, hbd⟩)
          omega

theorem links_of_not_declares {key : String} (h : ¬ t.Declares key) : t.links key = [] := by
  rw [links]
  split
  · rfl
  · rename_i f hf
    exact (h (declares_of_get? hf)).elim

theorem eq_of_reaches {key other : String} (h : ¬ t.Declares key) (hr : t.Reaches key other) :
    other = key := by
  induction hr with
  | refl => rfl
  | step _ hl _ ih =>
    rw [ih, links_of_not_declares h] at hl
    cases hl

theorem numbers_iff_records {key other : String} {new : List String}
    (hn : (key :: new).Nodup) (hr : ∀ source, t.Reaches key source ↔ source ∈ key :: new) :
    t.Numbers [key] (t.met (t.links key) new) other ↔ t.Records key other := by
  have hm : t.met (t.links key) new = (key :: new).flatMap t.links := List.flatMap_cons.symm
  have hlink (link : FootnoteLink) : link ∈ (key :: new).flatMap t.links ↔
      ∃ source, t.Reaches key source ∧ link ∈ t.links source := by
    simp only [hr, List.mem_flatMap]
  rw [Numbers, hm, hlink, hlink, two_le_count_flatMap hn, Records, MeetsTwice]
  simp only [← hr, List.mem_singleton]
  refine and_congr_right fun _ => or_congr_right (or_congr_right (or_congr_right ?_))
  constructor
  · rintro ⟨a, ha, b, hb, hne, hla, hlb⟩
    exact ⟨a, b, hne, ha, hb, hla, hlb⟩
  · rintro ⟨a, b, hne, ha, hb, hla, hlb⟩
    exact ⟨a, ha, b, hb, hne, hla, hlb⟩

theorem not_records_of_not_declares {key other : String} (h : ¬ t.Declares key) :
    ¬ t.Records key other := by
  have hno (link : FootnoteLink) {source : String} (hr : t.Reaches key source) :
      link ∉ t.links source := by
    rw [eq_of_reaches h hr, links_of_not_declares h]
    exact List.not_mem_nil
  rintro ⟨-, ⟨s, hr, hl⟩ | ⟨-, s, hr, hl⟩ | ⟨s, hr, hc⟩ | ⟨s, s', -, hr, -, hl, -⟩⟩
  · exact hno _ hr hl
  · exact hno _ hr hl
  · exact hno _ hr (List.count_pos_iff.1 (Nat.lt_of_lt_of_le Nat.zero_lt_two hc))
  · exact hno _ hr hl

/-- A scan looks through just the footnotes that can be reached. -/
theorem Scanned.reaches_iff {key : String} {n : Numbering} {s' : Scan} {new : List String}
    (h : t.Scanned (t.links key) ⟨[key], n⟩ s' new) (source : String) :
    t.Reaches key source ↔ source ∈ key :: new := by
  have hp : (new ++ [key]).Perm (key :: new) := List.perm_append_singleton key new
  constructor
  · intro hr
    induction hr with
    | refl => exact List.mem_cons_self ..
    | @step middle last _ hl hd ih =>
      have hm : ⟨last, true⟩ ∈ t.met (t.links key) new := by
        rw [Footnotes.met, ← List.flatMap_cons]
        exact List.mem_flatMap.2 ⟨middle, ih, hl⟩
      rw [← hp.mem_iff, ← h.expanded]
      exact h.complete last hm hd
  · intro hs
    rcases List.mem_cons.1 hs with rfl | hs
    · exact .refl
    · obtain ⟨first, hl, hf, hr⟩ := h.reached source hs
      exact (Reaches.refl.step hl hf).trans hr

/-- The scan of a footnote numbers what it records, and nothing else. -/
theorem numberContent_spec (key : String) (n : Numbering) :
    n.keys <+: (t.numberContent key n).keys ∧
      ∀ other, other ∈ (t.numberContent key n).keys ↔ other ∈ n.keys ∨ t.Records key other := by
  by_cases hd : t.Declares key
  · obtain ⟨f, hf⟩ := Option.isSome_iff_exists.1 hd
    have he : t.numberContent key n = (t.scan t.size (t.links key) ⟨[key], n⟩).numbering := by
      rw [numberContent, hf, links, hf]
    obtain ⟨new, h⟩ := exists_scanned t.size (t.links key) ⟨[key], n⟩ (by simp)
      (fun k hk => (List.mem_singleton.1 hk).symm ▸ hd) (Nat.lt_succ_of_le distinct_le_size)
    have hn : (key :: new).Nodup :=
      (List.perm_append_singleton key new).nodup_iff.1 (h.expanded ▸ h.nodup)
    rw [he]
    refine ⟨h.grows, fun other => ?_⟩
    rw [h.numbered, numbers_iff_records hn h.reaches_iff]
  · have he : t.numberContent key n = n := by
      rw [numberContent]
      split
      · rfl
      · rename_i f hf
        exact (hd (declares_of_get? hf)).elim
    rw [he]
    exact ⟨List.prefix_rfl, fun other => (or_iff_left (not_records_of_not_declares hd)).symm⟩

end Footnotes

end XamlDoc
