import XamlDoc.Data.Decoder
import XamlDoc.Document.Encoding

/-!
# Decoders beside the forms that they read

A decoder reads back what was written for a value. This passes from values to lists and options of them.
What stands inside a list or a record is less deep than the whole.
-/

namespace XamlDoc

/-! ### Depth -/

namespace Data

theorem depth_le_depthList {d : Data} {l : List Data} (h : d ∈ l) : d.depth ≤ depthList l := by
  induction l with
  | nil => cases h
  | cons e r ih =>
    rw [depthList]
    rcases List.mem_cons.1 h with rfl | h
    · exact Nat.le_max_left _ _
    · exact Nat.le_trans (ih h) (Nat.le_max_right _ _)

theorem depth_le_depthFields {name : String} {d : Data} {l : List (String × Data)} (h : (name, d) ∈ l) :
    d.depth ≤ depthFields l := by
  induction l with
  | nil => cases h
  | cons e r ih =>
    rw [depthFields]
    rcases List.mem_cons.1 h with rfl | h
    · exact Nat.le_max_left _ _
    · exact Nat.le_trans (ih h) (Nat.le_max_right _ _)

theorem depth_lt_list {d : Data} {l : List Data} (h : d ∈ l) : d.depth < (list l).depth := by
  have hd := depth_le_depthList h
  rw [depth]
  omega

theorem depth_lt_record {name : String} {d : Data} {l : List (String × Data)} (h : (name, d) ∈ l) :
    d.depth < (record l).depth := by
  have hd := depth_le_depthFields h
  rw [depth]
  omega

theorem depth_pos (d : Data) : 0 < d.depth := by
  unfold depth
  split <;> omega

end Data

namespace Decoder

variable {α : Type}

/-! ### Numbers -/

theorem integer_natural {high : Int} {n : Nat} (h : n ≤ high) : integer 0 high (.natural n) = some n := by
  have hn : (0 : Int) ≤ n ∧ (n : Int) ≤ high := ⟨Int.natCast_nonneg n, h⟩
  unfold integer Data.natural
  exact if_pos hn

@[simp] theorem byte_natural (n : UInt8) : byte (.natural n.toNat) = some n := by
  have hn : (n.toNat : Int) ≤ 255 := by
    have := n.toNat_lt
    omega
  unfold byte
  rw [integer_natural hn]
  simp

@[simp] theorem word32_natural (n : UInt32) : word32 (.natural n.toNat) = some n := by
  have hn : (n.toNat : Int) ≤ UInt32.size - 1 := by
    have := n.toNat_lt
    rw [UInt32.size]
    omega
  unfold word32
  rw [integer_natural hn]
  simp

@[simp] theorem word64_natural (n : UInt64) : word64 (.natural n.toNat) = some n := by
  have hn : (n.toNat : Int) ≤ UInt64.size - 1 := by
    have := n.toNat_lt
    rw [UInt64.size]
    omega
  unfold word64
  rw [integer_natural hn]
  simp

@[simp] theorem string_string (s : String) : string (.string s) = some s := rfl

@[simp] theorem boolean_boolean (b : Bool) : boolean (.boolean b) = some b := rfl

/-! ### Options and lists -/

theorem nullable_of_ne_null {value : Decoder α} {d : Data} (h : d ≠ .null) :
    nullable value d = (value d).map some := by
  cases d with
  | null => exact (h rfl).elim
  | _ => rfl

theorem nullable_ofOption {value : Decoder α} {encode : α → Data} {a? : Option α}
    (h : ∀ a ∈ a?, value (encode a) = some a) (hn : ∀ a, encode a ≠ .null) :
    nullable value (.ofOption encode a?) = some a? := by
  cases a? with
  | none => rfl
  | some a =>
    rw [Data.ofOption, nullable_of_ne_null (hn a), h a rfl]
    rfl

@[simp] theorem nullable_string (s? : Option String) : nullable string (.ofOption .string s?) = some s? :=
  nullable_ofOption (fun s _ => string_string s) fun _ => nofun

@[simp] theorem nullable_word32 (n? : Option UInt32) :
    nullable word32 (.ofOption (.natural ·.toNat) n?) = some n? :=
  nullable_ofOption (fun n _ => word32_natural n) fun _ => nofun

theorem list_map {value : Decoder α} {encode : α → Data} {l : List α}
    (h : ∀ a ∈ l, value (encode a) = some a) : list value (.list (l.map encode)) = some l := by
  change items value (l.map encode) = some l
  induction l with
  | nil => rfl
  | cons a r ih =>
    have ha := h a (List.mem_cons_self ..)
    have hr := ih fun b hb => h b (List.mem_cons_of_mem a hb)
    rw [List.map_cons, items, ha, Option.bind_some, hr]
    rfl

@[simp] theorem list_string (l : List String) : list string (.list (l.map .string)) = some l :=
  list_map fun s _ => string_string s

theorem mapping_map {value : Decoder α} {encode : α → Data} {l : List (String × α)}
    (h : ∀ e ∈ l, value (encode e.2) = some e.2) :
    mapping value (.record (l.map fun e => (e.1, encode e.2))) = some l := by
  change entries value (l.map fun e => (e.1, encode e.2)) = some l
  induction l with
  | nil => rfl
  | cons e r ih =>
    have he := h e (List.mem_cons_self ..)
    have hr := ih fun b hb => h b (List.mem_cons_of_mem e hb)
    rw [List.map_cons, entries, he, Option.bind_some, hr]
    rfl

end Decoder

end XamlDoc
