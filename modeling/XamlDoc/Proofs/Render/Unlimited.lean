import XamlDoc.Proofs.Render.InPlace

/-!
# Documents of scripts

How deep documents of scripts may be nested makes no difference beyond the depth at which no script returns one any
more, and nothing is ever nested too deeply then.
-/

namespace XamlDoc

open Markup (Writer WriteError Writing)
open Rendering Layout Render

/-! ### Passes -/

namespace Html

/-- Passes that do the same with any number of levels more, and never find that they are too few. -/
def Unlimited (α : Type) (m : Nat → Pass α) (_ : List String) : Prop :=
  (∀ limit limit', m limit = m limit') ∧ ∀ limit p, m limit p ≠ .error .tooDeep

namespace Unlimited

variable {α : Type} {k : List String}

theorem step {m : Pass α} (h : Step α m) : Unlimited α (fun _ => m) k := ⟨fun _ _ => rfl, fun _ => h.ne_tooDeep⟩

theorem of_le {m : Nat → Pass α} {n limit : Nat} (h : Unlimited α (fun limit => m (limit + n)) k) (hl : n ≤ limit) :
    m limit = m n ∧ ∀ p, m limit p ≠ .error .tooDeep := by
  obtain ⟨more, rfl⟩ := Nat.exists_eq_add_of_le' hl
  exact ⟨(h.1 more 0).trans (congrArg m (Nat.zero_add n)), h.2 more⟩

theorem abreast : Abreast Unlimited := by
  refine .ofSteps step fun {_ _ m f _ _} hm hf => ⟨fun limit limit' => ?_, fun limit p => ?_⟩
  · show m limit >>= f limit = m limit' >>= f limit'
    rw [hm.1 limit limit', show f limit = f limit' from funext fun a => (hf a).1 limit limit']
  · show (m limit >>= f limit) p ≠ _
    rw [bind_apply]
    cases hr : m limit p with
    | ok r => exact (hf r.1).2 limit r.2
    | error halt => exact fun h => hm.2 limit p (hr.trans (congrArg _ (Except.error.inj h)))

variable {evaluator? : Option Evaluator} {profile : Profile} {X : Set String}

theorem expanding {nested : Nat → Document → Part}
    (hn : ∀ {expression}, expression ∈ X → ∀ evaluate d, evaluator? = some evaluate →
      (evaluate expression).result = .ok (.document d) → Unlimited _ (fun limit => nested limit d) [])
    {D : Document} (hD : D.Throughout (Node.ScriptIn X)) (levels : Nat) (expanding : List String) :
    Together (fun _ => .unlimited) Unlimited D (Node.ScriptIn X)
      (fun limit => Scope.expanding ⟨evaluator?, profile, D, fun _ => none, nested limit⟩ levels expanding)
      fun _ => [] :=
  abreast.expanding step (fun hX => hn (hX _ rfl)) (fun _ ht => abreast.table ht) hD levels expanding

/-- One level for each document around another one is enough for the documents that scripts return. -/
theorem nestedDocument {n : Nat} (h : ∀ evaluate, evaluator? = some evaluate → evaluate.NestsWithin n X)
    {expression : String} (hX : expression ∈ X) (evaluate : Evaluator) (D : Document)
    (he : evaluator? = some evaluate) (hr : (evaluate expression).result = .ok (.document D)) :
    Unlimited _ (fun limit => nestedDocument evaluator? profile (limit + n) D) [] := by
  induction n generalizing X expression evaluate D with
  | zero => exact (h evaluate he expression hX D hr).elim
  | succ n ih =>
    have inner : ∀ evaluate, evaluator? = some evaluate → evaluate.NestsWithin n D.expressions := by
      rintro _ rfl
      cases he
      exact h evaluate rfl expression hX D hr
    exact abreast.ownNumbers step ((expanding (ih inner) D.throughout_expressions D.footnotes.size []).all abreast
      (c := ⟨fun _ => false, D.references⟩) rfl D.throughout_expressions.nodes)

/-- Nodes of a document in any scope of it. -/
theorem nodes {n : Nat} (h : ∀ evaluate, evaluator? = some evaluate → evaluate.NestsWithin n X) {D : Document}
    (hD : D.Throughout (Node.ScriptIn X)) (levels : Nat) (expanding : List String) {l : List Node}
    (hl : ∀ n ∈ l, n.Throughout (Node.ScriptIn X)) :
    Unlimited _ (fun limit => nodes (Scope.expanding ⟨evaluator?, profile, D, fun _ => none,
      Html.nestedDocument evaluator? profile (limit + n)⟩ levels expanding) l) [] :=
  (Unlimited.expanding (nestedDocument h) hD levels expanding).all abreast (c := ⟨fun _ => false, D.references⟩) rfl hl

end Unlimited

end Html

/-! ### Renderings -/

namespace Render

/-- Renderings that do the same with any number of levels more, and never find that they are too few, on any
writer. -/
def Unlimited (α : Type) (m : Nat → Rendering α) : Prop :=
  (∀ limit limit', m limit = m limit') ∧
    ∀ (limit : Nat) (p : Progress) {σ : Type} [Writer σ] (w : σ), (Writing.run (m limit p) w).1 ≠ .error .tooDeep

namespace Unlimited

variable {α : Type}

theorem write_ne_tooDeep {σ : Type} [Writer σ] (c : Writing (Except WriteError α)) (p : Progress) (w : σ) :
    (Writing.run (ofWriting c p) w).1 ≠ .error .tooDeep := by
  rw [ofWriting, Writing.run_bind]
  cases (c.run w).1 with
  | ok a => exact fun h => by cases h
  | error e => exact fun h => by cases h

theorem step {m : Rendering α} (h : Step α m) : Unlimited α fun _ => m := by
  refine ⟨fun _ _ => rfl, fun _ p _ _ w => ?_⟩
  cases h with
  | append r a => exact fun h => by cases h
  | comment t => exact fun h => by cases h
  | flush profile => exact write_ne_tooDeep (Writing.calls (p.runs.calls profile)) _ w
  | write c => exact write_ne_tooDeep c p w
  | quiet c =>
    show (Writing.run (ofQuiet c p) w).1 ≠ _
    rw [ofQuiet, Writing.run_bind]
    exact fun h => by cases h

theorem of_le {m : Nat → Rendering α} {n limit : Nat} (h : Unlimited α fun limit => m (limit + n)) (hl : n ≤ limit) :
    m limit = m n ∧
      ∀ (p : Progress) {σ : Type} [Writer σ] (w : σ), (Writing.run (m limit p) w).1 ≠ .error .tooDeep := by
  obtain ⟨more, rfl⟩ := Nat.exists_eq_add_of_le' hl
  exact ⟨(h.1 more 0).trans (congrArg m (Nat.zero_add n)), h.2 more⟩

theorem ofPass {m : Nat → Html.Pass α} {k : List String} (h : Html.Unlimited α m k) :
    Unlimited α fun limit => ofPass (m limit) := by
  refine ⟨fun limit limit' => congrArg _ (h.1 limit limit'), fun limit p _ _ w => ?_⟩
  have hm := h.2 limit p.traversal
  show (Writing.run (Rendering.ofPass (m limit) p) w).1 ≠ _
  rw [Rendering.ofPass]
  cases hr : m limit p.traversal with
  | ok r => exact fun h => by cases h
  | error halt =>
    cases halt with
    | cancelled => exact fun h => by cases h
    | tooDeep => exact (hm hr).elim

theorem stepwise : Stepwise Unlimited where
  step := step
  pass h := ofPass (k := []) (Html.Unlimited.step h)
  andThen {_ _ m f} hm hf := by
    refine ⟨fun limit limit' => ?_, fun limit p _ _ w => ?_⟩
    · show m limit >>= f limit = m limit' >>= f limit'
      rw [hm.1 limit limit', show f limit = f limit' from funext fun a => (hf a).1 limit limit']
    · show (Writing.run ((m limit >>= f limit) p) w).1 ≠ _
      rw [bind_apply, Writing.run_bind]
      cases hr : (Writing.run (m limit p) w).1 with
      | ok r => exact (hf r.1).2 limit r.2 _
      | error e => exact fun h => hm.2 limit p w (hr.trans (congrArg _ (Except.error.inj h)))

end Unlimited

variable {S : Setting} {X : Set String} {n : Nat}

theorem unlimited_scriptDocuments
    (h : ∀ evaluate, S.extensions.evaluator? = some evaluate → evaluate.NestsWithin n X) :
    ScriptDocuments (fun _ => .unlimited) (fun _ _ => Unlimited) (Node.ScriptIn X) S.dialect.profile
      S.extensions.evaluator? (fun limit => scriptDocument S (limit + n))
      fun limit => Html.nestedDocument S.extensions.evaluator? S.dialect.profile (limit + n) := by
  induction n generalizing X with
  | zero =>
    refine ⟨fun hX evaluate D he hr => (h evaluate he _ (hX _ rfl) D hr).elim, fun {D} hD levels expanding {l} hl => ?_⟩
    exact Unlimited.ofPass (Html.Unlimited.nodes h hD levels expanding hl)
  | succ n ih =>
    refine ⟨fun {expression _} hX evaluate D he hr => ?_, fun {D} hD levels expanding {l} hl => ?_⟩
    · have inner : ∀ evaluate, S.extensions.evaluator? = some evaluate →
          evaluate.NestsWithin n D.expressions := by
        intro evaluate' he'
        cases he.symm.trans he'
        exact h evaluate he expression (hX _ rfl) D hr
      have abreast := Unlimited.stepwise.abreast S.dialect
      exact (Unlimited.stepwise.settings S).included abreast (fun _ ht => abreast.table ht) (ih inner)
        D.throughout_expressions
    · exact Unlimited.ofPass (Html.Unlimited.nodes h hD levels expanding hl)

variable (h : ∀ evaluate, S.extensions.evaluator? = some evaluate → evaluate.NestsWithin n X) {D : Document}
  (hD : D.Throughout (Node.ScriptIn X))
include h hD

theorem unlimited_document (inclusion : Bool) : Unlimited Unit fun limit => document S (limit + n) D inclusion :=
  let abreast := Unlimited.stepwise.abreast S.dialect
  (Unlimited.stepwise.settings S).documentWithin abreast (fun _ ht => abreast.table ht) (unlimited_scriptDocuments h)
    hD inclusion

variable {limit : Nat} (hl : n ≤ limit)
include hl

theorem document_of_le (inclusion : Bool) : document S limit D inclusion = document S n D inclusion ∧
    ∀ (p : Progress) {σ : Type} [Writer σ] (w : σ),
      (Writing.run (document S limit D inclusion p) w).1 ≠ .error .tooDeep :=
  (unlimited_document h hD inclusion).of_le (m := fun limit => document S limit D inclusion) hl

variable (inclusion : Bool) (fuse? : Option Nat)

/-- More levels than documents are nested make no difference. -/
theorem renderUntil_eq_of_le : renderUntil S limit D inclusion fuse? = renderUntil S n D inclusion fuse? := by
  simp only [renderUntil, renderFrom, (document_of_le h hD hl inclusion).1]

theorem renderUntil_ne_tooDeep_of_le {σ : Type} [Writer σ] (w : σ) :
    ((renderUntil S limit D inclusion fuse?).run w).1 ≠ .error .tooDeep := by
  have hm := (document_of_le h hD hl inclusion).2 ⟨.start fuse?, ∅⟩ w
  rw [renderUntil, run_renderFrom]
  cases hr : (Writing.run (document S limit D inclusion ⟨.start fuse?, ∅⟩) w).1 with
  | ok r => exact fun h => by cases h
  | error e =>
    rw [run_unwound_error]
    exact fun h => hm (hr.trans (congrArg _ (Except.error.inj h)))

end Render

end XamlDoc
