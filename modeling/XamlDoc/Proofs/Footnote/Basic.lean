import Mathlib.Data.List.Dedup
import XamlDoc.Document.Footnotes
import XamlDoc.Footnote.Numbering

/-!
# Declared and numbered footnotes

How many footnotes a table can declare, and the numbering after several references. A table and a numbering alike take
a key at their end when it comes for the first time.
-/

namespace XamlDoc

/-! ### Keys in the order in which they come first -/

def addKey (keys : List String) (key : String) : List String := if key ∈ keys then keys else keys ++ [key]

theorem foldl_addKey (keys l : List String) :
    l.foldl addKey keys = keys ++ (l.filter fun key => key ∉ keys).eraseDups := by
  induction l generalizing keys with
  | nil => exact (List.append_nil keys).symm
  | cons k r ih =>
    rw [List.foldl_cons, ih, addKey]
    split
    · rename_i hk
      rw [List.filter_cons_of_neg (by simpa using hk)]
    · rename_i hk
      rw [List.filter_cons_of_pos (by simpa using hk), List.eraseDups_cons, List.filter_filter, List.append_assoc]
      refine congrArg (fun new => keys ++ k :: List.eraseDups new) (List.filter_congr fun key _ => ?_)
      by_cases he : key = k <;> simp [he]

theorem mem_foldl_addKey {keys l : List String} {key : String} : key ∈ l.foldl addKey keys ↔ key ∈ keys ∨ key ∈ l := by
  rw [foldl_addKey, List.mem_append, List.mem_eraseDups, List.mem_filter]
  by_cases hk : key ∈ keys <;> simp [hk]

/-- No key comes to be there twice. -/
theorem count_addKey {keys : List String} {key k : String} (h : 1 < (addKey keys k).count key) :
    (addKey keys k).count key = keys.count key := by
  rw [addKey] at h ⊢
  split
  · rfl
  · rename_i hk
    rw [if_neg hk] at h
    by_cases he : k = key
    · rw [he, List.count_append, List.count_singleton_self, List.count_eq_zero_of_not_mem (he ▸ hk)] at h
      exact absurd h (Nat.lt_irrefl 1)
    · simp [he]

theorem count_foldl_addKey {keys l : List String} {key : String} (h : 1 < (l.foldl addKey keys).count key) :
    (l.foldl addKey keys).count key = keys.count key := by
  induction l generalizing keys with
  | nil => rfl
  | cons k r ih =>
    have hr := ih h
    exact hr.trans (count_addKey (hr ▸ h))

namespace Footnotes

def Declares (t : Footnotes) (key : String) : Prop := (t.get? key).isSome

variable {t : Footnotes} {key : String} {f : Footnote}

theorem get?_eq_none : t.get? key = none ↔ ∀ f ∈ t.entries, f.key ≠ key := by
  simp [get?]

theorem get?_eq_none_iff_keys : t.get? key = none ↔ key ∉ t.keys := by
  rw [get?_eq_none, keys, List.mem_map, not_exists]
  exact forall_congr' fun _ => not_and.symm

/-- The first entry for a key is found. -/
theorem get?_eq_some :
    t.get? key = some f ↔ f.key = key ∧
      ∃ before after, t.entries = before ++ f :: after ∧ ∀ g ∈ before, g.key ≠ key := by
  simp [get?, List.find?_eq_some_iff_append]

theorem mem_of_get? (hf : t.get? key = some f) : f ∈ t.entries := by
  obtain ⟨-, before, after, he, -⟩ := get?_eq_some.1 hf
  exact he ▸ List.mem_append_right before (List.mem_cons_self ..)

theorem declares_of_get? (hf : t.get? key = some f) : t.Declares key := Option.isSome_iff_exists.2 ⟨f, hf⟩

theorem Declares.mem_keys (h : t.Declares key) : key ∈ t.keys := by
  obtain ⟨f, hf⟩ := Option.isSome_iff_exists.1 h
  exact List.mem_map.2 ⟨f, mem_of_get? hf, (get?_eq_some.1 hf).1⟩

/-- How many different keys there are. -/
def distinct (t : Footnotes) : Nat := t.keys.dedup.length

theorem distinct_le_size : t.distinct ≤ t.size := by
  have h := (List.dedup_sublist t.keys).length_le
  rwa [keys, List.length_map] at h

theorem length_le_distinct {l : List String} (hn : l.Nodup) (hd : ∀ key ∈ l, t.Declares key) :
    l.length ≤ t.distinct :=
  hn.length_le_of_subset fun key hk => List.mem_dedup.2 (hd key hk).mem_keys

/-- Different declared keys are no more than there are footnotes. -/
theorem length_le_size {l : List String} (hn : l.Nodup) (hd : ∀ key ∈ l, t.Declares key) :
    l.length ≤ t.size := Nat.le_trans (length_le_distinct hn hd) distinct_le_size

end Footnotes

namespace Numbering

def addAll (n : Numbering) (keys : List String) : Numbering := keys.foldl add n

variable {n : Numbering} {key k : String} {l : List String}

theorem addAll_append (a b : List String) : n.addAll (a ++ b) = (n.addAll a).addAll b :=
  List.foldl_append

theorem keys_add (n : Numbering) (k : String) : (n.add k).keys = addKey n.keys k := by
  rw [add, addKey]
  split <;> rfl

theorem keys_addAll (n : Numbering) (l : List String) : (n.addAll l).keys = l.foldl addKey n.keys := by
  induction l generalizing n with
  | nil => rfl
  | cons k r ih =>
    rw [List.foldl_cons, ← keys_add]
    exact ih (n.add k)

theorem mem_add : key ∈ (n.add k).keys ↔ key ∈ n.keys ∨ key = k := by
  rw [add]
  split
  · rename_i hk
    refine ⟨.inl, fun h => h.elim id fun h => h ▸ hk⟩
  · simp

theorem prefix_add : n.keys <+: (n.add k).keys := by
  rw [add]
  split
  · exact List.prefix_rfl
  · exact List.prefix_append _ _

theorem prefix_addAll : n.keys <+: (n.addAll l).keys := by
  induction l generalizing n with
  | nil => exact List.prefix_rfl
  | cons k r ih => exact prefix_add.trans ih

theorem mem_addAll : key ∈ (n.addAll l).keys ↔ key ∈ n.keys ∨ key ∈ l := by
  rw [keys_addAll, mem_foldl_addKey]

/-- References to numbered keys change nothing. -/
theorem keys_addAll_eq_iff : (n.addAll l).keys = n.keys ↔ ∀ key ∈ l, key ∈ n.keys := by
  constructor
  · intro h key hk
    rw [← h]
    exact mem_addAll.2 (.inr hk)
  · intro h
    induction l with
    | nil => rfl
    | cons k r ih =>
      have hk : n.add k = n := by rw [add, dif_pos (h k (List.mem_cons_self ..))]
      rw [show n.addAll (k :: r) = (n.add k).addAll r from rfl, hk]
      exact ih fun key hr => h key (List.mem_cons_of_mem k hr)

theorem ext_keys {n' : Numbering} (h : n.keys = n'.keys) : n = n' := by
  cases n
  cases n'
  cases h
  rfl

theorem number?_of_mem (h : key ∈ n.keys) : ∃ number, n.number? key = some number := by
  have hi : (n.keys.idxOf? key).isSome = true := List.isSome_idxOf?.2 h
  rw [number?]
  exact Option.isSome_iff_exists.1 (by rwa [Option.isSome_map])

/-- A key keeps its number when others are numbered after it. -/
theorem number?_of_prefix {n' : Numbering} (h : n.keys <+: n'.keys) {number : Nat}
    (hk : n.number? key = some number) : n'.number? key = some number := by
  obtain ⟨more, hm⟩ := h
  obtain ⟨i, hi, rfl⟩ := Option.map_eq_some_iff.1 hk
  rw [number?, ← hm, List.idxOf?, List.findIdx?_append]
  rw [List.idxOf?] at hi
  rw [hi]
  rfl

end Numbering

end XamlDoc
