import XamlDoc.Proofs.Footnote.Printing
import XamlDoc.Proofs.Html.Traversal

/-!
# Numbers given by passes

A pass over nodes that makes HTML numbers the footnotes whose references it shows, in order.
-/

namespace XamlDoc

namespace Html

/-- When the pass ends well, it has numbered just the keys, in order. -/
def Adds (α : Type) (m : Pass α) (keys : List String) : Prop :=
  ∀ t a t', m t = .ok (a, t') → t'.numbering = t.numbering.addAll keys

namespace Adds

variable {α β : Type}

theorem done (a : α) : Adds α (pure a) [] := by
  intro t b t' h
  cases h
  rfl

theorem andThen {m : Pass α} {f : α → Pass β} {k l : List String} (hm : Adds α m k)
    (hf : ∀ a, Adds β (f a) l) : Adds β (m >>= f) (k ++ l) := by
  intro t b t' h
  rw [bind_apply] at h
  split at h
  · rename_i a u hu
    rw [hf a u b t' h, hm t a u hu, Numbering.addAll_append]
  · cases h

theorem visit {m : Pass α} {k : List String} (hm : Adds α m k) : Adds α (visit m) k := by
  intro t a t' h
  rw [visit_apply] at h
  split at h
  · cases h
  · rw [hm _ a t' h, t.numbering_tick]

theorem compositional : Compositional Adds where
  done := done
  andThen := andThen
  visit := visit

end Adds

/-! ### Scripts -/

/-- A document inside another leaves the numbers of that alone. -/
theorem Adds.ownNumbers {α : Type} (m : Pass α) : Adds α (ownNumbers m) [] := by
  intro t a t' h
  have he : Html.ownNumbers m t = (m >>= fun a => do
      modify fun u : Traversal => { u with numbering := t.numbering }
      pure a) { t with numbering := ∅ } := rfl
  rw [he, bind_apply] at h
  split at h <;> cases h
  rfl

theorem adds_nestedDocument (evaluator? : Option Evaluator) (profile : Profile) (limit : Nat) (d : Document) :
    Adds _ (nestedDocument evaluator? profile limit d) [] := by
  cases limit with
  | zero => exact nofun
  | succ limit => exact Adds.ownNumbers _

theorem adds_script {s : Scope} (hn : ∀ d, Adds _ (s.nested d) []) (expression : String) :
    Adds _ (script s expression) [] := by
  refine Adds.compositional.script hn (fun evaluate expression _ => ?_) expression
  intro t a t' h
  cases h
  rfl

theorem expanding_script (s : Scope) (levels : Nat) (expanding : List String) :
    script (s.expanding levels expanding) = script s := by
  cases levels <;> rfl

/-! ### References -/

theorem adds_number (key : String) :
    Adds Nat (modifyGet fun t : Traversal => t.reference key) [key] := by
  intro t n t' h
  cases h
  rfl

theorem traversed_adds {s : Scope} (hs : ∀ expression, Adds _ (script s expression) [])
    {keys : ShownLink → List String}
    (hr : ∀ key autoExpand, Adds _ (footnoteReference s key autoExpand) (keys ⟨.html, key, autoExpand⟩)) :
    Traversed Adds s keys where
  reference := hr
  script := hs

theorem adds_reference {s : Scope} (takes : MediaItem → Bool)
    (hs : ∀ expression, Adds _ (script s expression) []) (levels : Nat) (expanding : List String)
    (key : String) (autoExpand : Bool) :
    Adds _ (footnoteReference (s.expanding levels expanding) key autoExpand)
      (s.document.footnotes.printed (s.sight takes) levels expanding ⟨.html, key, autoExpand⟩) := by
  induction levels generalizing expanding key autoExpand with
  | zero =>
    rw [footnoteReference, expanding_document, Footnotes.printed]
    cases s.document.footnotes.get? key with
    | none => exact Adds.done []
    | some f =>
      have hi : (if autoExpand then (s.expanding 0 expanding).inPlace key else none) = none := by
        cases autoExpand <;> rfl
      simp only [hi]
      exact Adds.compositional.map (adds_number key) fun _ => Adds.done _
  | succ levels ih =>
    rw [footnoteReference, expanding_document, Footnotes.printed]
    cases hf : s.document.footnotes.get? key with
    | none => exact Adds.done []
    | some f =>
      have hi : (if autoExpand then (s.expanding (levels + 1) expanding).inPlace key else none) =
          if autoExpand && !expanding.contains key then
            some (footnoteContent (s.expanding levels (key :: expanding)) f.content) else none := by
        simp only [Scope.expanding, hf]
        cases autoExpand <;> cases expanding.contains key <;> rfl
      by_cases hx : (autoExpand && !expanding.contains key) = true
      · have hc : s.document.footnotes.shown (s.sight takes) .html key =
            (s.sight takes).shownAll .html f.content := by rw [Footnotes.shown, hf]
        have hd : (s.expanding levels (key :: expanding)).sight takes = s.sight takes := by
          rw [Scope.sight, expanding_document, Scope.sight]
        rw [if_pos hx] at hi
        simp only [hi, if_pos hx]
        rw [hc, ← hd]
        refine Traversed.footnoteContent Adds.compositional takes (traversed_adds ?_ (hd ▸ ih (key :: expanding))) f.content
        exact (expanding_script s _ _).symm ▸ hs
      · rw [if_neg hx] at hi
        simp only [hi, if_neg hx]
        exact Adds.compositional.map (adds_number key) fun _ => Adds.done _

theorem adds_nodes {s : Scope} (takes : MediaItem → Bool)
    (hs : ∀ expression, Adds _ (script s expression) []) (levels : Nat) (expanding : List String) (l : List Node) :
    Adds _ (nodes (s.expanding levels expanding) l) (((s.sight takes).shownAll .html l).flatMap
      (s.document.footnotes.printed (s.sight takes) levels expanding)) := by
  have hd : (s.expanding levels expanding).sight takes = s.sight takes := by
    rw [Scope.sight, expanding_document, Scope.sight]
  have ht := traversed_adds ((expanding_script s levels expanding).symm ▸ hs)
    (adds_reference takes hs levels expanding)
  rw [← hd]
  exact Traversed.all Adds.compositional takes (hd ▸ ht) l

end Html

end XamlDoc
