import XamlDoc.Proofs.Html.Traversal

/-!
# Fragments that passes end with

A pass yields a property if the fragments that it ends well with have it. A property that fragments have together,
and that an element keeps, is yielded by lists and tables if it is by their parts.
-/

namespace XamlDoc

namespace Html

/-- What the pass ends well with has the property. -/
def Yields {α : Type} (P : α → Prop) (m : Pass α) : Prop := ∀ t a t', m t = .ok (a, t') → P a

/-- The property is kept by fragments side by side, and by an element around them whose attributes are as they
should be. -/
structure Shaped (P : List Fragment → Prop) (A : Attributes → Prop) : Prop where
  nil : P []
  append {l r : List Fragment} : P l → P r → P (l ++ r)
  element (tag : Tag) {attributes : Attributes} {l : List Fragment} :
    A attributes → P l → P [.element tag attributes l]
  /-- Elements may be without attributes, and numbers may be their values. -/
  none : A []
  number (name : AttributeName) (n : Nat) : A [(name, toString n)]

namespace Yields

variable {α β : Type} {P : α → Prop} {R : β → Prop}

theorem done {a : α} (h : P a) : Yields P (pure a) := by
  intro t b t' hb
  cases hb
  exact h

theorem andThen {m : Pass α} {f : α → Pass β} (hm : Yields P m) (hf : ∀ a, P a → Yields R (f a)) :
    Yields R (m >>= f) := by
  intro t b t' h
  rw [bind_apply] at h
  split at h
  · rename_i a u hu
    exact hf a (hm t a u hu) u b t' h
  · cases h

theorem visit {m : Pass α} (hm : Yields P m) : Yields P (visit m) := by
  intro t a t' h
  rw [visit_apply] at h
  split at h
  · cases h
  · exact hm _ a t' h

theorem any (m : Pass α) : Yields (fun _ => True) m := fun _ _ _ _ => trivial

end Yields

namespace Shaped

variable {P : List Fragment → Prop} {A : Attributes → Prop} (h : Shaped P A)
include h

theorem both {m n : Part} (hm : Yields P m) (hn : Yields P n) :
    Yields P (do
      let first ← m
      pure (first ++ (← n))) :=
  hm.andThen fun _ hl => hn.andThen fun _ hr => .done (h.append hl hr)

theorem wrapped {m : Part} (hm : Yields P m) (tag : Tag) {attributes : Attributes} (ha : A attributes) :
    Yields P (wrapped tag attributes m) := hm.andThen fun _ hl => .done (h.element tag ha hl)

theorem inOrder {ι : Type} {f : ι → Part} {items : List ι} (hi : ∀ i ∈ items, Yields P (f i)) :
    Yields P (Html.inOrder (items.map f)) := by
  induction items with
  | nil => exact .done h.nil
  | cons i r ih =>
    have hr := ih fun j hj => hi j (List.mem_cons_of_mem i hj)
    exact h.both (hi i (List.mem_cons_self ..)) hr

theorem nodes {s : Scope} {l : List Node} (hl : ∀ n ∈ l, Yields P (node s n)) : Yields P (nodes s l) := by
  induction l with
  | nil => exact .done h.nil
  | cons n r ih =>
    have hr := ih fun m hm => hl m (List.mem_cons_of_mem n hm)
    exact h.both (hl n (List.mem_cons_self ..)) hr

/-! ### Lists and tables -/

theorem numberedItem (item : NumberedItem Part) (hi : Yields P item.child) : Yields P (numberedItem item) := by
  refine h.wrapped hi .li ?_
  cases item.number with
  | none => exact h.none
  | some n => exact h.number .value n.toNat

theorem definitionGroup {g : DefinitionGroup Part} (terms : ∀ m ∈ g.terms, Yields P m)
    (descriptions : ∀ m ∈ g.descriptions, Yields P m) : Yields P (definitionGroup g) :=
  h.both (h.inOrder fun m hm => h.wrapped (terms m hm) .dt h.none)
    (h.inOrder fun m hm => h.wrapped (descriptions m hm) .dd h.none)

theorem groups {s : Scope} {items : List (DefinitionGroup Node)}
    (hi : ∀ n ∈ (Node.definitionList items).children, Yields P (node s n)) :
    Yields P (Html.inOrder ((groups s items).map Html.definitionGroup)) := by
  rw [groups_eq, List.map_map]
  refine h.inOrder fun g hg => h.definitionGroup (fun m hm => ?_) fun m hm => ?_
  · obtain ⟨term, ht, rfl⟩ := List.mem_map.1 hm
    exact hi term (Node.mem_children_terms hg ht)
  · obtain ⟨description, hd, rfl⟩ := List.mem_map.1 hm
    exact hi description (Node.mem_children_descriptions hg hd)

theorem placedCell (tag : Tag) {p : Placement Part}
    (hp : ∀ cell, p.cell? = some cell → Yields P cell.content) : Yields P (placedCell tag p) := by
  obtain ⟨column, span, cell?⟩ := p
  refine h.wrapped ?_ tag ?_
  · cases cell? with
    | none => exact .done h.nil
    | some cell => exact hp cell rfl
  · dsimp only
    split
    · exact h.number .colspan span
    · exact h.none

theorem tableRow (columns : Nat) (tag : Tag) {row : Row Part}
    (hr : ∀ cell, some cell ∈ row → Yields P cell.content) : Yields P (tableRow columns tag row) := by
  refine h.wrapped (h.inOrder fun p hp => h.placedCell tag fun cell hc => hr cell ?_) .tr h.none
  exact Row.mem_of_mem_placeFrom hp hc

theorem table {t : Table Part} (hid : A ((t.id.map fun i => (AttributeName.id, i)).toList))
    (hc : P (t.caption.map fun c => wrap .caption [.text c]).toList)
    (ht : ∀ row ∈ t.allRows, ∀ cell, some cell ∈ row → Yields P cell.content) : Yields P (table t) := by
  refine h.wrapped ?_ .table hid
  have headers := h.inOrder fun row hr => h.tableRow t.columns.toNat .th (ht row (List.mem_append_left _ hr))
  have rows := h.inOrder fun row hr => h.tableRow t.columns.toNat .td (ht row (List.mem_append_right _ hr))
  exact headers.andThen fun _ hh => rows.andThen fun _ hr => .done (h.append (h.append hc hh) hr)

theorem table_map {s : Scope} {t : Table Node} (hid : A ((t.id.map fun i => (AttributeName.id, i)).toList))
    (hc : P (t.caption.map fun c => wrap .caption [.text c]).toList)
    (ht : ∀ n ∈ Node.cellContents t.allRows, Yields P (node s n)) : Yields P (Html.table (t.map (node s))) := by
  refine h.table hid hc fun row hr cell hc => ?_
  rw [Table.allRows_map] at hr
  obtain ⟨cells, hcells, rfl⟩ := List.mem_map.1 hr
  obtain ⟨cell?, hcell, hc⟩ := List.mem_map.1 hc
  obtain ⟨_, rfl, rfl⟩ := Option.map_eq_some_iff.1 hc
  exact ht _ (Node.mem_cellContents hcells hcell)

end Shaped

end Html

end XamlDoc
