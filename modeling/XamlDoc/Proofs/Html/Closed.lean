import XamlDoc.Proofs.Html.Traversal

/-!
# Closed properties of passes

A property of passes that does not speak of keys is closed if it is compositional, holds of the steps of
a pass, and is kept by a document that is included with numbers of its own. A closed property holds of
the pass over any nodes, whatever scripts return in them.
-/

namespace XamlDoc

namespace Html

structure Closed (evaluator? : Option Evaluator) (Q : (α : Type) → Pass α → Prop) : Prop
    extends Compositional fun α m _ => Q α m where
  cancelIf {evaluate : Evaluator} (expression : String) :
    evaluator? = some evaluate → Q Unit (cancelIf (evaluate expression).cancels)
  tooDeep : Q (List Fragment) (throw .tooDeep)
  number (key : String) : Q Nat (modifyGet fun t => t.reference key)
  ownNumbers {m : Part} : Q _ m → Q _ (ownNumbers m)

/-- What a pass takes from its scope has the property. -/
structure Scope.Has (s : Scope) (evaluator? : Option Evaluator) (Q : (α : Type) → Pass α → Prop) :
    Prop where
  evaluator : s.evaluator? = evaluator?
  inPlace {key : String} {content : Part} : s.inPlace key = some content → Q _ content
  nested (d : Document) : Q _ (s.nested d)

namespace Closed

variable {evaluator? : Option Evaluator} {Q : (α : Type) → Pass α → Prop} (h : Closed evaluator? Q)
include h

theorem bind {α β : Type} {m : Pass α} {f : α → Pass β} (hm : Q α m) (hf : ∀ a, Q β (f a)) :
    Q β (m >>= f) := h.andThen (k := []) (l := []) hm hf

theorem footnoteReference {s : Scope} (hs : s.Has evaluator? Q) (key : String) (autoExpand : Bool) :
    Q _ (footnoteReference s key autoExpand) := by
  refine h.toCompositional.abreast.footnoteReference (s := fun _ => s) (fun _ => rfl) (h.number key) ?_ autoExpand
  cases hc : s.inPlace key with
  | none => exact .inl fun _ => rfl
  | some content => exact .inr ⟨fun _ => content, fun _ => rfl, hs.inPlace hc⟩

theorem script {s : Scope} (hs : s.Has evaluator? Q) (expression : String) : Q _ (script s expression) :=
  h.toCompositional.script hs.nested
    (fun _ expression he => h.cancelIf expression (hs.evaluator.symm.trans he)) expression

theorem traversed {s : Scope} (hs : s.Has evaluator? Q) : Traversed (fun α m _ => Q α m) s fun _ => [] where
  reference := h.footnoteReference hs
  script := h.script hs

theorem nodes {s : Scope} (hs : s.Has evaluator? Q) (l : List Node) : Q _ (nodes s l) :=
  Traversed.all h.toCompositional (fun _ => false) (h.traversed hs) l

theorem expanding {s : Scope} (hs : s.Has evaluator? Q) (levels : Nat) (expanding : List String) :
    (s.expanding levels expanding).Has evaluator? Q := by
  induction levels generalizing expanding with
  | zero => exact ⟨hs.evaluator, (fun hk => by cases hk), hs.nested⟩
  | succ levels ih =>
    refine ⟨hs.evaluator, fun {key} {content} hk => ?_, hs.nested⟩
    simp only [Scope.expanding] at hk
    split at hk
    · cases hk
    · obtain ⟨f, -, rfl⟩ := Option.map_eq_some_iff.1 hk
      have ht := h.traversed (ih (key :: expanding))
      exact Traversed.footnoteContent h.toCompositional (fun _ => false) ht f.content

theorem nestedDocument (profile : Profile) (limit : Nat) (d : Document) :
    Q _ (nestedDocument evaluator? profile limit d) := by
  induction limit generalizing d with
  | zero => exact h.tooDeep
  | succ limit ih => exact h.ownNumbers (h.nodes (h.expanding ⟨rfl, (fun hk => by cases hk), ih⟩ _ _) _)

end Closed

theorem closed_true {evaluator? : Option Evaluator} : Closed evaluator? fun _ _ => True where
  done _ := trivial
  andThen _ _ := trivial
  visit _ := trivial
  cancelIf _ _ := trivial
  tooDeep := trivial
  number _ := trivial
  ownNumbers _ := trivial

end Html

end XamlDoc
