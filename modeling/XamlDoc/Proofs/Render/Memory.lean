import XamlDoc.Proofs.Html.Memory
import XamlDoc.Proofs.Render.Stacked

/-!
# Renderings in a memory

With the memory that there is, a rendering makes the calls that it makes without bounds, or breaks off after some of
them, at a table that the memory is too small for.
-/

namespace XamlDoc

open Markup (WriteError Writer Writing)
open Rendering Layout Render

/-- The first writing is the second one or, which may be if `P` holds, breaks off before its end. -/
inductive Markup.Writing.Confined (P : Prop) {α : Type} :
    Writing (Except RenderError α) → Writing (Except RenderError α) → Prop where
  | same (m : Writing (Except RenderError α)) : Confined P m m
  | short (h : P) (m : Writing (Except RenderError α)) : Confined P (.done (.error .tooDeep)) m
  | perform (c : Markup.Call) {next next' : Except WriteError Unit → Writing (Except RenderError α)} :
    (∀ r, Confined P (next r) (next' r)) → Confined P (.perform c next) (.perform c next')
  | askDepth {next next' : Nat → Writing (Except RenderError α)} :
    (∀ n, Confined P (next n) (next' n)) → Confined P (.askDepth next) (.askDepth next')

namespace Markup.Writing.Confined

variable {P : Prop} {α β : Type} {m m' : Writing (Except RenderError α)}

theorem bind {f f' : Except RenderError α → Writing (Except RenderError β)} (h : Confined P m m')
    (hf : ∀ r, Confined P (f r) (f' r)) (he : f (.error .tooDeep) = .done (.error .tooDeep)) :
    Confined P (m.bind f) (m'.bind f') := by
  induction h with
  | same m =>
    induction m with
    | done r => exact hf r
    | perform c next ih => exact .perform c ih
    | askDepth next ih => exact .askDepth ih
  | short hP m =>
    rw [Writing.bind, he]
    exact .short hP _
  | perform c _ ih => exact .perform c ih
  | askDepth _ ih => exact .askDepth ih

theorem eq (h : Confined P m m') (hP : ¬ P) : m = m' := by
  induction h with
  | same m => rfl
  | short h _ => exact (hP h).elim
  | perform c _ ih => exact congrArg (Writing.perform c) (funext ih)
  | askDepth _ ih => exact congrArg Writing.askDepth (funext ih)

/-- A run that breaks off leaves the writer as the whole run has it on the way. -/
theorem run (h : Confined P m m') {σ : Type} [Writer σ] (w : σ) :
    m.run w = m'.run w ∨ P ∧ (m.run w).1 = .error .tooDeep ∧
      ∃ rest : Writing (Except RenderError α), m'.run w = rest.run (m.run w).2 := by
  induction h generalizing w with
  | same m => exact .inl rfl
  | short hP m => exact .inr ⟨hP, rfl, m, rfl⟩
  | perform c _ ih => exact ih _ _
  | askDepth _ ih => exact ih _ w

end Markup.Writing.Confined

namespace Render

/-- Of two renderings, the second without bounds, the first is the same or, if `P` holds, may break off. -/
def Confined (P : Prop) (α : Type) (m : Bool → Rendering α) : Prop := ∀ p, Writing.Confined P (m false p) (m true p)

namespace Confined

variable {P : Prop} {α : Type}

theorem ofPass {m : Bool → Html.Pass α} {k : List String} (h : Html.Confined P α m k) :
    Confined P α fun x => ofPass (m x) := by
  intro p
  simp only [Rendering.ofPass]
  obtain h | ⟨hP, h⟩ := h p.traversal
  · rw [h]
    exact .same _
  · rw [h]
    exact .short hP _

theorem short (h : P) {m : Bool → Rendering α} (hm : m false = throw .tooDeep) : Confined P α m := by
  intro p
  rw [hm]
  exact .short h _

theorem stepwise : Stepwise (Confined P) where
  step _ _ := .same _
  pass _ _ := .same _
  andThen {_ _ m f} hm hf p := by
    show Writing.Confined P ((m false >>= f false) p) ((m true >>= f true) p)
    simp only [bind_apply]
    refine (hm p).bind (fun r => ?_) rfl
    cases r with
    | ok r => exact hf r.1 r.2
    | error _ => exact .same _

theorem abreast (d : Dialect) : Abreast d.profile (fun _ => d) fun _ _ => Confined P := stepwise.abreast d

/-! ### Tables -/

section

variable {M : Memory} {d : Dialect} {t : Table Node} {part : Bool → Node → Part} {margins : Node → Margins}
  {isInline : Node → Bool} (hM : t.Fits M ∨ P)
include hM

theorem startGrid : Confined P Unit fun x => @Layout.startGrid (M.beside x) (t.map (part x)) := by
  have hl (x : Bool) : (t.map (part x)).allRows.length = t.allRows.length := by
    rw [Table.allRows_map, List.length_map]
  by_cases hf : M.fits (16 * (t.map (part false)).columns.toNat) = true
  · have hs (x : Bool) : @Layout.startGrid (M.beside x) (t.map (part x)) =
        emit (gridStart "-2" (List.replicate t.columns.toNat "Auto") t.allRows.length) := by
      rw [← hl x]
      cases x with
      | false =>
        rw [@Layout.startGrid, @columnWidths?, if_pos hf]
        rfl
      | true => rfl
    simp only [hs]
    exact stepwise.step (.write _)
  · refine short (hM.resolve_left fun h => hf h.1) ?_
    rw [@Layout.startGrid, @columnWidths?, if_neg hf]

theorem tableRow (row : Nat) {cells : Row Node} (hc : ∀ n ∈ cells.placed t.columns.toNat,
      Part.Abreast (fun _ _ => Confined P) (margins n) (isInline n) fun x => part x n) :
    Confined P Unit fun x => @Layout.tableRow d (M.beside x) (t.map (part x)) row (cells.map (part x)) := by
  by_cases hf : M.fits (24 * (t.map (part false)).columns.toNat) = true
  · have hs (x : Bool) : @Layout.tableRow d (M.beside x) (t.map (part x)) row (cells.map (part x)) =
        @Layout.tableRow d .unlimited (t.map (part x)) row (cells.map (part x)) := by
      cases x with
      | false =>
        rw [@Layout.tableRow, Row.columnSpans?_of_fits _ hf]
        rfl
      | true => rfl
    simp only [hs]
    exact (abreast d).tableRow t row hc
  · refine short (hM.resolve_left fun h => hf h.2) ?_
    rw [@Layout.tableRow, Row.columnSpans?_of_not_fits _ hf]

theorem table (ht : ∀ n ∈ t.placed, Part.Abreast (fun _ _ => Confined P) (margins n) (isInline n) fun x => part x n) :
    Confined P Unit fun x => @Layout.table d (M.beside x) (t.map (part x)) := by
  have hr : Confined P Unit fun x => inRows (@Layout.tableRow d (M.beside x) (t.map (part x)))
      (t.map (part x)).allRows := by
    simp only [Table.allRows_map]
    refine (abreast d).inRows (i := .settled) fun row cells hc => tableRow hM row fun n hn => ht n ?_
    exact List.mem_flatMap.2 ⟨cells, hc, hn⟩
  exact stepwise.andThen (stepwise.step (.quiet _)) fun _ => stepwise.andThen (stepwise.step (.write _)) fun _ =>
    stepwise.andThen (startGrid hM) fun _ => stepwise.andThen hr fun _ => stepwise.step (.write _)

end

/-! ### Documents -/

variable {M : Memory} {S : Setting} (he : S.extensions.evaluator? = none) {D : Document}
  (hD : D.Throughout fun n => n.Fits M ∨ P)
include he hD

/-- A document without scripts, in which there is room for all tables if `P` does not hold. -/
theorem document (limit : Nat) (inclusion : Bool) :
    Confined P Unit fun x => @Render.document (M.beside x) S limit D inclusion := by
  have ht : TablesTogether M.beside (fun _ _ => Confined P) (fun _ => S.dialect) fun n => n.Fits M ∨ P :=
    fun ht hp => table (ht.imp_left fun h => h _ rfl) hp
  have hn : ScriptDocuments M.beside (fun _ _ => Confined P) (fun n => n.Fits M ∨ P) S.dialect.profile
      S.extensions.evaluator? (fun x => @scriptDocument (M.beside x) S limit) fun x =>
        @Html.nestedDocument (M.beside x) S.extensions.evaluator? S.dialect.profile limit := by
    refine ⟨fun _ evaluate _ hs => ?_, fun {D} hD levels expanding {l} hl => ?_⟩
    · rw [he] at hs
      cases hs
    rw [he]
    have hh := Html.Confined.expanding S.dialect.profile (fun x =>
      @Html.nestedDocument (M.beside x) none S.dialect.profile limit) hD levels expanding
    exact ofPass (hh.all Html.Confined.abreast (c := ⟨fun _ => false, D.references⟩) rfl hl)
  exact (stepwise.settings S).documentWithin (abreast S.dialect) ht hn hD inclusion

end Confined

end Render

end XamlDoc
