import XamlDoc.Proofs.Footnote.Scan

/-!
# Footnotes that get a row

The footnotes numbered before a section is written are closed under what scans record: each of them
has been scanned, although scanning adds to them. All of them were numbered before or recorded by a
scan.
-/

namespace XamlDoc

namespace Footnotes

variable {t : Footnotes}

/-- What is known of a numbering `n` that came from `first` when the footnotes before `index` have been
scanned. -/
structure Nesting (t : Footnotes) (first n : Numbering) (index : Nat) : Prop where
  grows : ∃ new, n.keys = first.keys ++ new ∧ ∀ key ∈ new, t.Declares key
  closed : ∀ key ∈ n.keys.take index, ∀ other, t.Records key other → other ∈ n.keys
  origin : ∀ key ∈ n.keys, key ∈ first.keys ∨ ∃ source ∈ n.keys, source ≠ key ∧ t.Records source key

namespace Nesting

variable {first n : Numbering} {index : Nat}

theorem start (n : Numbering) : t.Nesting n n 0 where
  grows := ⟨[], (List.append_nil _).symm, fun _ h => (List.not_mem_nil h).elim⟩
  closed _ h := (List.not_mem_nil h).elim
  origin _ h := .inl h

theorem length_le (h : t.Nesting first n index) : n.keys.length ≤ first.keys.length + t.distinct := by
  obtain ⟨new, he, hd⟩ := h.grows
  have hn : new.Nodup := (List.nodup_append.1 (he ▸ n.nodup)).2.1
  have hl := length_le_distinct hn hd
  rw [he, List.length_append]
  omega

theorem step (h : t.Nesting first n index) {key : String} (hk : n.keys[index]? = some key) :
    t.Nesting first (t.numberContent key n) (index + 1) := by
  obtain ⟨⟨more, hm⟩, hs⟩ := numberContent_spec (t := t) key n
  have hold (other : String) (ho : other ∈ n.keys) : other ∈ (t.numberContent key n).keys :=
    (hs other).2 (.inl ho)
  obtain ⟨hi, hget⟩ := List.getElem?_eq_some_iff.1 hk
  constructor
  · obtain ⟨new, he, hd⟩ := h.grows
    refine ⟨new ++ more, by rw [← hm, he, List.append_assoc], fun other ho => ?_⟩
    rcases List.mem_append.1 ho with ho | ho
    · exact hd other ho
    · -- what is added is not numbered before, so the scan has recorded it
      have hnew : other ∉ n.keys := fun hn =>
        (List.nodup_append.1 (hm ▸ (t.numberContent key n).nodup)).2.2 other hn other ho rfl
      have hin : other ∈ (t.numberContent key n).keys := hm ▸ List.mem_append_right _ ho
      exact (((hs other).1 hin).resolve_left hnew).1
  · have htake : (t.numberContent key n).keys.take (index + 1) = n.keys.take index ++ [key] := by
      rw [← hm, List.take_append_of_le_length hi, List.take_add_one, hk]
      rfl
    intro source hsource other hr
    rw [htake] at hsource
    rcases List.mem_append.1 hsource with hsource | hsource
    · exact hold other (h.closed source hsource other hr)
    · rw [List.mem_singleton.1 hsource] at hr
      exact (hs other).2 (.inr hr)
  · intro other ho
    have hkey : key ∈ n.keys := hget ▸ List.getElem_mem hi
    by_cases hn : other ∈ n.keys
    · rcases h.origin other hn with hf | ⟨source, hsource, hr⟩
      · exact .inl hf
      · exact .inr ⟨source, hold source hsource, hr⟩
    · have hr : t.Records key other := ((hs other).1 ho).resolve_left hn
      exact .inr ⟨key, hold key hkey, fun e => hn (e ▸ hkey), hr⟩

/-- When there are enough steps, all footnotes are scanned. -/
theorem numberFrom (h : t.Nesting first n index) (steps : Nat)
    (hs : first.keys.length + t.distinct ≤ steps + index) :
    ∃ last, t.Nesting first (t.numberFrom steps index n) last ∧
      (t.numberFrom steps index n).keys.length ≤ last := by
  induction steps generalizing n index with
  | zero =>
    have hl := h.length_le
    exact ⟨index, h, by rw [Footnotes.numberFrom]; omega⟩
  | succ steps ih =>
    rw [Footnotes.numberFrom]
    split
    · rename_i hk
      exact ⟨index, h, List.getElem?_eq_none_iff.1 hk⟩
    · rename_i key hk
      exact ih (h.step hk) (by omega)

end Nesting

/-- A footnote gets a row just if it was numbered before, or is recorded by the scan of another one that
gets a row. -/
theorem mem_numberNested (n : Numbering) (key : String) :
    key ∈ (t.numberNested n).keys ↔
      key ∈ n.keys ∨ ∃ source ∈ (t.numberNested n).keys, source ≠ key ∧ t.Records source key := by
  obtain ⟨last, h, hl⟩ := (Nesting.start (t := t) n).numberFrom
    (n.keys.length + t.size) (Nat.add_le_add_left distinct_le_size _)
  refine ⟨h.origin key, fun hk => ?_⟩
  rcases hk with hk | ⟨source, hs, -, hr⟩
  · obtain ⟨new, he, -⟩ := h.grows
    have hin : key ∈ n.keys ++ new := List.mem_append_left new hk
    exact he ▸ hin
  · exact h.closed source (by rwa [List.take_of_length_le hl]) key hr

theorem mem_numberNested_of_records {n : Numbering} {source key : String}
    (hs : source ∈ (t.numberNested n).keys) (hr : t.Records source key) :
    key ∈ (t.numberNested n).keys := by
  by_cases he : source = key
  · exact he ▸ hs
  · exact (mem_numberNested n key).2 (.inr ⟨source, hs, he, hr⟩)

theorem numberNested_of_isEmpty {n : Numbering} (h : n.isEmpty) : t.numberNested n = n := by
  have hk : n.keys[0]? = none := by rw [List.isEmpty_iff.1 h]; rfl
  rw [numberNested]
  cases n.keys.length + t.size with
  | zero => rfl
  | succ steps => rw [Footnotes.numberFrom, hk]

end Footnotes

end XamlDoc
