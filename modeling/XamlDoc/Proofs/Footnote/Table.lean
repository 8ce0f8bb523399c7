import XamlDoc.Proofs.Footnote.Basic

/-!
# Tables of footnotes

Footnotes are declared one after the other in a table that may already have a key in it more than once. A declaration
has to do with one entry only, the first for its key, which is also the one that is looked up.
-/

namespace XamlDoc

namespace Footnotes

/-- The table after some footnotes have been declared in turn. -/
def insertAll (t : Footnotes) (l : List Footnote) : Footnotes := l.foldl (fun t f => t.insert f.key f.content) t

variable {t : Footnotes} {key : String} {content : List Node}

/-! ### One declaration -/

theorem insertEntry_of_forall_ne {l : List Footnote} (h : ∀ f ∈ l, f.key ≠ key) :
    insertEntry key content l = l ++ [⟨key, content⟩] := by
  induction l with
  | nil => rfl
  | cons f r ih =>
    obtain ⟨hf, hr⟩ := List.forall_mem_cons.1 h
    rw [insertEntry, if_neg hf, ih hr, List.cons_append]

theorem insertEntry_append {before after : List Footnote} {f : Footnote} (h : ∀ g ∈ before, g.key ≠ key)
    (hf : f.key = key) :
    insertEntry key content (before ++ f :: after) = before ++ ⟨key, content⟩ :: after := by
  induction before with
  | nil => rw [List.nil_append, insertEntry, if_pos hf, hf, List.nil_append]
  | cons g r ih =>
    obtain ⟨hg, hr⟩ := List.forall_mem_cons.1 h
    rw [List.cons_append, insertEntry, if_neg hg, ih hr, List.cons_append]

/-- Either the first entry for the key gets the content, or there is none and an entry is added at the end. -/
theorem entries_insert (t : Footnotes) (key : String) (content : List Node) :
    (∃ before f after, t.entries = before ++ f :: after ∧ f.key = key ∧ (∀ g ∈ before, g.key ≠ key) ∧
        (t.insert key content).entries = before ++ ⟨key, content⟩ :: after) ∨
      (∀ f ∈ t.entries, f.key ≠ key) ∧ (t.insert key content).entries = t.entries ++ [⟨key, content⟩] := by
  cases hg : t.get? key with
  | none =>
    have hn := get?_eq_none.1 hg
    exact .inr ⟨hn, insertEntry_of_forall_ne hn⟩
  | some f =>
    obtain ⟨hf, before, after, he, hb⟩ := get?_eq_some.1 hg
    refine .inl ⟨before, f, after, he, hf, hb, ?_⟩
    rw [insert, he]
    exact insertEntry_append hb hf

theorem keys_insert (t : Footnotes) (key : String) (content : List Node) :
    (t.insert key content).keys = addKey t.keys key := by
  obtain ⟨before, f, after, he, hf, -, hi⟩ | ⟨hn, hi⟩ := t.entries_insert key content
  · have hk : key ∈ t.keys := List.mem_map.2 ⟨f, he ▸ List.mem_append_right _ (List.mem_cons_self ..), hf⟩
    rw [addKey, if_pos hk, keys, keys, hi, he, List.map_append, List.map_append, List.map_cons, List.map_cons, hf]
  · have hk : key ∉ t.keys := get?_eq_none_iff_keys.1 (get?_eq_none.2 hn)
    rw [addKey, if_neg hk, keys, hi, List.map_append]
    rfl

theorem get?_insert_self (t : Footnotes) (key : String) (content : List Node) :
    (t.insert key content).get? key = some ⟨key, content⟩ := by
  refine get?_eq_some.2 ⟨rfl, ?_⟩
  obtain ⟨before, f, after, -, -, hb, hi⟩ | ⟨hn, hi⟩ := t.entries_insert key content
  · exact ⟨before, after, hi, hb⟩
  · exact ⟨t.entries, [], hi, hn⟩

theorem get?_insert_of_ne {other : String} (h : other ≠ key) : (t.insert key content).get? other = t.get? other := by
  obtain ⟨before, f, after, he, hf, -, hi⟩ | ⟨-, hi⟩ := t.entries_insert key content
  · have hne : f.key ≠ other := hf ▸ h.symm
    simp [get?, hi, he, List.find?_append, hne, h.symm]
  · simp [get?, hi, List.find?_append, h.symm]

/-! ### Declarations in turn -/

theorem insertAll_append (l m : List Footnote) : t.insertAll (l ++ m) = (t.insertAll l).insertAll m := List.foldl_append

theorem keys_insertAll (t : Footnotes) (l : List Footnote) :
    (t.insertAll l).keys = (l.map Footnote.key).foldl addKey t.keys := by
  induction l generalizing t with
  | nil => rfl
  | cons f r ih =>
    rw [insertAll, List.foldl_cons, List.map_cons, List.foldl_cons, ← keys_insert t f.key f.content]
    exact ih _

theorem get?_insertAll_of_forall_ne {l : List Footnote} (h : ∀ f ∈ l, f.key ≠ key) :
    (t.insertAll l).get? key = t.get? key := by
  induction l generalizing t with
  | nil => rfl
  | cons f r ih =>
    obtain ⟨hf, hr⟩ := List.forall_mem_cons.1 h
    exact (ih hr).trans (get?_insert_of_ne hf.symm)

/-- What counts for a key is the footnote declared last for it, or else the first entry that was there before. The keys
stand in their old order, with the new ones behind them in the order of their first declaration. A declaration changes
no entry but the first for its key, and none is there twice that was not before: a table made by declarations alone has
every key once. -/
theorem insertAll_table (t : Footnotes) (l : List Footnote) :
    (∀ before f after, l = before ++ f :: after → (∀ g ∈ after, g.key ≠ f.key) →
        (t.insertAll l).get? f.key = some f) ∧
      (∀ before f after, t.entries = before ++ f :: after → (∀ g ∈ before, g.key ≠ f.key) →
        (∀ g ∈ l, g.key ≠ f.key) → (t.insertAll l).get? f.key = some f) ∧
      (∀ key, (t.insertAll l).get? key = none ↔ ∀ f ∈ t.entries ++ l, f.key ≠ key) ∧
      (t.insertAll l).keys = t.keys ++ ((l.map Footnote.key).filter fun key => key ∉ t.keys).eraseDups ∧
      (∀ key content,
        (∃ before f after, t.entries = before ++ f :: after ∧ f.key = key ∧ (∀ g ∈ before, g.key ≠ key) ∧
            (t.insert key content).entries = before ++ ⟨key, content⟩ :: after) ∨
          (∀ f ∈ t.entries, f.key ≠ key) ∧ (t.insert key content).entries = t.entries ++ [⟨key, content⟩]) ∧
      (∀ key, 1 < (t.insertAll l).keys.count key → (t.insertAll l).keys.count key = t.keys.count key) ∧
      ((∅ : Footnotes).insertAll l).keys.Nodup := by
  refine ⟨?_, ?_, fun key => ?_, ?_, t.entries_insert, fun key h => ?_, ?_⟩
  · rintro before f after rfl ha
    rw [insertAll_append]
    exact (get?_insertAll_of_forall_ne ha).trans (get?_insert_self _ f.key f.content)
  · intro before f after he hb hl
    rw [get?_insertAll_of_forall_ne hl]
    exact get?_eq_some.2 ⟨rfl, before, after, he, hb⟩
  · rw [get?_eq_none_iff_keys, keys_insertAll, mem_foldl_addKey, keys, ← List.mem_append, ← List.map_append, List.mem_map,
      not_exists]
    exact forall_congr' fun _ => not_and
  · rw [keys_insertAll, foldl_addKey]
  · rw [keys_insertAll] at h ⊢
    exact count_foldl_addKey h
  · refine List.nodup_iff_count_le_one.2 fun key => ?_
    by_contra h
    rw [keys_insertAll] at h
    have hc := count_foldl_addKey (Nat.lt_of_not_le h)
    exact h (hc ▸ Nat.zero_le 1)

/-- Of two entries for a key the first is replaced. -/
example :
    let t : Footnotes := ⟨[⟨"a", [.text "1"]⟩, ⟨"b", []⟩, ⟨"a", [.text "2"]⟩]⟩
    (t.insertAll [⟨"c", []⟩, ⟨"a", [.text "3"]⟩, ⟨"c", [.lineBreak]⟩]).entries =
      [⟨"a", [.text "3"]⟩, ⟨"b", []⟩, ⟨"a", [.text "2"]⟩, ⟨"c", [.lineBreak]⟩] := by
  rfl

end Footnotes

end XamlDoc
