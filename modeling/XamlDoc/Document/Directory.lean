/-!
# Directories

Values by key. The entries stand in increasing order of their keys, so each key occurs once and two
directories with the same answers are equal.
-/

namespace XamlDoc

structure Directory (α : Type) where
  entries : List (String × α)
  sorted : entries.Pairwise fun a b => a.1 < b.1

namespace Directory

variable {α : Type}

def empty : Directory α := ⟨[], List.Pairwise.nil⟩

instance : EmptyCollection (Directory α) := ⟨empty⟩

def get? (d : Directory α) (key : String) : Option α := d.entries.lookup key

def insertEntry (key : String) (value : α) : List (String × α) → List (String × α)
  | [] => [(key, value)]
  | (k, v) :: r =>
    if key < k then (key, value) :: (k, v) :: r
    else if key = k then (k, value) :: r
    else (k, v) :: insertEntry key value r

theorem mem_insertEntry {key : String} {value : α} {l : List (String × α)} {e : String × α}
    (h : e ∈ insertEntry key value l) : e = (key, value) ∨ e ∈ l ∨ e.1 = key := by
  fun_induction insertEntry key value l with
  | case1 => simp_all
  | case2 =>
    rcases List.mem_cons.1 h with rfl | h
    · exact Or.inl rfl
    · exact Or.inr (Or.inl h)
  | case3 v r _ =>
    rcases List.mem_cons.1 h with rfl | h
    · exact Or.inr (Or.inr rfl)
    · exact Or.inr (Or.inl (List.mem_cons_of_mem _ h))
  | case4 k v r _ _ ih =>
    rcases List.mem_cons.1 h with rfl | h
    · exact Or.inr (Or.inl (List.mem_cons_self ..))
    · rcases ih h with h | h | h
      · exact Or.inl h
      · exact Or.inr (Or.inl (List.mem_cons_of_mem _ h))
      · exact Or.inr (Or.inr h)

theorem insertEntry_sorted (key : String) (value : α) {l : List (String × α)}
    (h : l.Pairwise fun a b => a.1 < b.1) :
    (insertEntry key value l).Pairwise fun a b => a.1 < b.1 := by
  fun_induction insertEntry key value l with
  | case1 => simp
  | case2 k v r hk =>
    refine List.pairwise_cons.2 ⟨fun e he => ?_, h⟩
    rcases List.mem_cons.1 he with rfl | he
    · exact hk
    · exact String.lt_trans hk ((List.pairwise_cons.1 h).1 e he)
  | case3 v r _ => exact List.pairwise_cons.2 (List.pairwise_cons.1 h)
  | case4 k v r hlt hne ih =>
    have hk : k < key := by
      have := String.not_lt.1 hlt
      grind
    refine List.pairwise_cons.2 ⟨fun e he => ?_, ih (List.pairwise_cons.1 h).2⟩
    rcases mem_insertEntry he with rfl | he | he
    · exact hk
    · exact (List.pairwise_cons.1 h).1 e he
    · exact he ▸ hk

def insert (d : Directory α) (key : String) (value : α) : Directory α :=
  ⟨insertEntry key value d.entries, insertEntry_sorted key value d.sorted⟩

def ofList (entries : List (String × α)) : Directory α :=
  entries.foldl (fun d e => d.insert e.1 e.2) empty

end Directory

end XamlDoc
