import XamlDoc.Proofs.Document.Scripts
import XamlDoc.Proofs.Html.Traversal

/-!
# Passes in a memory

With the memory that there is, a pass does the same as without bounds, or it breaks off at a table that the memory is
too small for.
-/

namespace XamlDoc

variable {M : Memory}

/-- The memory beside the one without bounds. -/
abbrev Memory.beside (M : Memory) : Bool → Memory
  | false => M
  | true => .unlimited

/-- There is room for the widths of the columns, and for as many placements. -/
def Table.Fits {ν : Type} (M : Memory) (t : Table ν) : Prop :=
  M.fits (16 * t.columns.toNat) ∧ M.fits (24 * t.columns.toNat)

/-- The node is no table, or there is room for it. -/
def Node.Fits (M : Memory) (n : Node) : Prop := ∀ t, n = .table t → t.Fits M

namespace Html

/-- Of two passes, the second without bounds, the first does the same or, which may be if `P` holds, it breaks off. -/
def Confined (P : Prop) (α : Type) (m : Bool → Pass α) (_ : List String) : Prop :=
  ∀ t, m false t = m true t ∨ P ∧ m false t = .error .tooDeep

namespace Confined

variable {P : Prop} {α : Type} {k : List String}

theorem same (m : Pass α) : Confined P α (fun _ => m) k := fun _ => .inl rfl

theorem abreast : Abreast (Confined P) := by
  refine .ofSteps (fun {_ m _} _ => same m) fun {_ _ m f _ _} hm hf t => ?_
  show (m false >>= f false) t = (m true >>= f true) t ∨ P ∧ (m false >>= f false) t = _
  simp only [bind_apply]
  obtain hm | ⟨hP, hm⟩ := hm t
  · rw [hm]
    cases m true t with
    | ok r => exact hf r.1 r.2
    | error _ => exact .inl rfl
  · rw [hm]
    exact .inr ⟨hP, rfl⟩

theorem tableRow {columns : Nat} (hc : M.fits (24 * columns) ∨ P) (tag : Tag) {cells : Row Node}
    {f : Bool → Node → Part} {g : Node → List String} (hp : ∀ n ∈ cells.placed columns, Confined P _ (f · n) (g n)) :
    Confined P _ (fun x => @tableRow (M.beside x) columns tag (cells.map (f x)))
      ((cells.placed columns).flatMap g) := by
  by_cases hM : M.fits (24 * columns) = true
  · have hs (x : Bool) : @Html.tableRow (M.beside x) columns tag (cells.map (f x)) =
        @Html.tableRow .unlimited columns tag (cells.map (f x)) := by
      cases x with
      | false =>
        rw [@Html.tableRow, Row.columnSpans?_of_fits _ hM]
        rfl
      | true => rfl
    simp only [hs]
    exact abreast.tableRow columns tag hp
  · have hs : @Html.tableRow M columns tag (cells.map (f false)) = throw .tooDeep := by
      rw [@Html.tableRow, Row.columnSpans?_of_not_fits _ hM]
    exact fun t => .inr ⟨hc.resolve_left hM, congrFun hs t⟩

/-- A document without scripts, in which there is room for all tables if `P` does not hold. -/
theorem expanding (profile : Profile) (nested : Bool → Document → Part) {D : Document}
    (hD : D.Throughout fun n => n.Fits M ∨ P) (levels : Nat) (expanding : List String) :
    Together M.beside (Confined P) D (fun n => n.Fits M ∨ P)
      (fun x => @Scope.expanding (M.beside x) ⟨none, profile, D, fun _ => none, nested x⟩ levels expanding)
      fun _ => [] := by
  refine abreast.expanding (fun {_ m} _ => same m) (fun _ _ _ he => ?_) (fun ht hp => ?_) hD levels expanding
  · cases he
  refine abreast.table_of_rows _ fun tag cells hc => tableRow (ht.imp_left fun h => (h _ rfl).2) tag fun n hn => ?_
  exact hp n (List.mem_flatMap.2 ⟨cells, hc, hn⟩)

end Confined

end Html

end XamlDoc
