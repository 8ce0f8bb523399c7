import XamlDoc.Proofs.Footnote.Exhaustion
import XamlDoc.Proofs.Render.Unlimited

/-!
# Termination

No document lets a rendering go on for ever, however its footnotes expand each other, unless scripts return documents:
what bounds a rendering is never reached. The nesting of documents of scripts is not looked at, footnotes are put on
a stack that holds different declared keys and is left as it was found, and the numbers of footnotes in footnotes are
given in as many steps as there are footnotes.
-/

namespace XamlDoc

open Markup (TreeBuilder Writer Writing)
open Render

variable {setting : Setting} {D : Document}

/-- As many levels as there are keys do as well as the levels of a document. -/
theorem scopeWithin_eq_of_le (limit : Nat) (e : D.footnotes.Stack) {levels : Nat}
    (hl : D.footnotes.distinct ≤ levels) :
    scopeWithin setting limit D levels e.keys = scopeWithin setting limit D D.footnotes.size e.keys := by
  have h {levels : Nat} (hl : D.footnotes.distinct ≤ levels) :=
    expandingScope_eq_of_le (s := outerScope setting limit D) rfl rfl e hl
  exact (h hl).trans (h Footnotes.distinct_le_size).symm

/-- With as many levels as there are keys, nothing is said about some stacks only. -/
theorem Render.OnStacks.all {α : Type} {limit : Nat} {m : Scope → Rendering α}
    (h : OnStacks D.footnotes D.footnotes.distinct α fun e =>
      m (scopeWithin setting limit D D.footnotes.distinct e.1.keys)) :
    OnStack (fun e : D.footnotes.Stack => e) D.footnotes.distinct α fun e =>
      m (scopeWithin setting limit D D.footnotes.size e.keys) := by
  obtain ⟨S, hS, hm⟩ := h
  simp only [← scopeWithin_eq_of_le limit _ (Nat.le_refl D.footnotes.distinct)]
  exact ⟨S, hS, fun e => hm ⟨e, Nat.le_add_right _ _⟩⟩

theorem Html.OnStacks.all {α : Type} {limit : Nat} {m : Scope → Pass α} {k : List String}
    (h : OnStacks D.footnotes D.footnotes.distinct α
      (fun e => m (scopeWithin setting limit D D.footnotes.distinct e.1.keys).html) k) :
    OnStack (fun e : D.footnotes.Stack => e) D.footnotes.distinct α
      (fun e => m (scopeWithin setting limit D D.footnotes.size e.keys).html) [] := by
  obtain ⟨S, hS, hm⟩ := h
  simp only [← scopeWithin_eq_of_le limit _ (Nat.le_refl D.footnotes.distinct)]
  exact ⟨S, hS, fun e => hm ⟨e, Nat.le_add_right _ _⟩⟩

section

variable (he : ∀ evaluate, setting.extensions.evaluator? = some evaluate → evaluate.NeverNests)
include he

/-! ### Documents of scripts -/

theorem nestsWithin_zero {evaluate : Evaluator} (hs : setting.extensions.evaluator? = some evaluate) :
    evaluate.NestsWithin 0 Set.univ := fun expression _ d => he evaluate hs expression d

theorem renderUntil_limit (limit limit' : Nat) (inclusion : Bool) (fuse? : Option Nat) :
    renderUntil setting limit D inclusion fuse? = renderUntil setting limit' D inclusion fuse? := by
  have h (limit : Nat) := renderUntil_eq_of_le (fun _ => nestsWithin_zero he) D.throughout_scriptIn_univ limit.zero_le
    inclusion fuse?
  exact (h limit).trans (h limit').symm

theorem renderUntil_ne_tooDeep (limit : Nat) (inclusion : Bool) (fuse? : Option Nat) {σ : Type} [Writer σ] (w : σ) :
    ((renderUntil setting limit D inclusion fuse?).run w).1 ≠ .error .tooDeep :=
  renderUntil_ne_tooDeep_of_le (fun _ => nestsWithin_zero he) D.throughout_scriptIn_univ limit.zero_le inclusion fuse? w

theorem unlimited_nodes (levels : Nat) (expanding : List String) (l : List Node) : Html.Unlimited _
    (fun limit => Html.nodes (scopeWithin setting limit D levels expanding).html l) [] := by
  simp only [scopeWithin_html]
  exact Html.Unlimited.nodes (fun _ => nestsWithin_zero he) D.throughout_scriptIn_univ levels expanding
    fun n _ => n.throughout_scriptIn_univ

/-! ### Footnotes in place -/

variable (limit : Nat)

theorem together_onStacks : Together (fun _ => .unlimited) (fun _ _ => OnStacks D.footnotes D.footnotes.distinct)
    (fun _ => setting.dialect) D (fun _ => True) fun e =>
      scopeWithin setting limit D D.footnotes.distinct e.1.keys := by
  refine onStack_expandingScope he (fun m hm => ?_) D.footnotes.distinct
  obtain ⟨detail, -, rfl⟩ := Option.map_eq_some_iff.1 hm
  exact ⟨_, _, onStack_included he _ _ detail⟩

theorem htmlTogether_onStacks : Html.Together (fun _ => .unlimited) (Html.OnStacks D.footnotes D.footnotes.distinct) D
    (fun _ => True) (fun e => (scopeWithin setting limit D D.footnotes.distinct e.1.keys).html) fun _ => [] := by
  have h := Html.OnStack.expanding (s := (outerScope setting limit D).html) he D.footnotes.distinct
  simp only [scopeWithin_html]
  exact h

end

/-- Every rendering of a document comes to its end, whatever its footnotes are, unless scripts return documents. -/
theorem Render.terminates (D : Document)
    (he : ∀ evaluate, setting.extensions.evaluator? = some evaluate → evaluate.NeverNests) (limit : Nat) :
    let t := D.footnotes
    let s (levels : Nat) (e : t.Stack) := scopeWithin setting limit D levels e.keys
    -- documents of scripts are never nested too deeply, and footnotes in place never run out of levels
    (∀ limit' inclusion fuse?,
      renderUntil setting limit D inclusion fuse? = renderUntil setting limit' D inclusion fuse?) ∧
    (∀ {σ : Type} [Writer σ] (w : σ) inclusion fuse?,
      ((renderUntil setting limit D inclusion fuse?).run w).1 ≠ .error .tooDeep) ∧
    (∀ (e : t.Stack) l, Html.Unlimited _
      (fun limit => Html.nodes (scopeWithin setting limit D t.size e.keys).html l) []) ∧
    (∀ (e : t.Stack) levels, t.distinct ≤ levels → s levels e = s t.size e) ∧
    -- nor do the numbers of footnotes in footnotes run out of levels or steps
    (∀ levels steps n, t.distinct ≤ levels → n.keys.length + t.distinct ≤ steps →
      t.numberFrom? levels steps 0 n = some (t.numberNested n)) ∧
    -- a stack never holds more keys than there are
    (∀ e : t.Stack, e.keys.Nodup ∧ (∀ key ∈ e.keys, t.Declares key) ∧ e.keys.length ≤ t.distinct) ∧
    -- a document begins and ends with an empty stack; nodes and references leave any stack as they found it
    (∀ inclusion, OnStack (fun _ : Unit => (∅ : t.Stack)) t.distinct Unit fun _ => document setting limit D inclusion) ∧
    (∀ st l, OnStack (fun e : t.Stack => e) t.distinct Unit fun e => nodes (s t.size e) l st) ∧
    (∀ l, Html.OnStack (fun e : t.Stack => e) t.distinct _ (fun e => Html.nodes (s t.size e).html l) []) ∧
    (∀ st key autoExpand, OnStack (fun e : t.Stack => e) t.distinct Unit fun e =>
      footnoteReference (s t.size e) st key autoExpand) ∧
    (∀ key autoExpand, Html.OnStack (fun e : t.Stack => e) t.distinct _
      (fun e => Html.footnoteReference (s t.size e).html key autoExpand) []) ∧
    -- and so do all that are met on the way, whether they end well or not
    (∀ {n : Nat} {α : Type} {S : Stacked t α}, Steps t n α S → ∀ {σ : Type} [Writer σ] p e (w : σ),
      ((S p e).run w).1.2 = e) ∧
    (∀ {n : Nat} {α : Type} {S : Html.Stacked t α}, Html.Steps t n α S → ∀ p e, (S p e).2 = e) := by
  intro t s
  have ht := together_onStacks he (D := D) limit
  have hh := htmlTogether_onStacks he (D := D) limit
  refine ⟨fun limit' => renderUntil_limit he limit limit', fun w inclusion fuse? => ?_, fun e l => ?_, ?_, ?_, ?_,
    onStack_document he limit D, fun st l => ?_, fun l => ?_, fun st key autoExpand => ?_, fun key autoExpand => ?_,
    ?_, ?_⟩
  · exact renderUntil_ne_tooDeep he limit inclusion fuse? w
  · exact unlimited_nodes he t.size e.keys l
  · exact fun e levels hl => scopeWithin_eq_of_le limit e hl
  · exact fun levels steps n hl hs => Footnotes.numberFrom?_numberNested n hl hs
  · exact fun e => ⟨e.nodup, e.declared, e.length_le⟩
  · exact OnStacks.all (m := fun s => nodes s l st)
      (ht.all (OnStack.stepwise.abreast setting.dialect) (fun n _ => n.throughout_true) st)
  · exact Html.OnStacks.all (m := fun s => Html.nodes s l)
      (hh.all Html.OnStack.abreast (c := ⟨fun _ => false, D.references⟩) rfl fun n _ => n.throughout_true)
  · exact OnStacks.all (m := fun s => footnoteReference s st key autoExpand) (ht.reference st key autoExpand)
  · exact Html.OnStacks.all (m := fun s => Html.footnoteReference s key autoExpand) (hh.reference key autoExpand)
  · exact fun hS _ _ p e w => hS.restores p e w
  · exact fun hS p e => hS.restores p e

/-- Footnotes that expand each other and themselves, one of them twice, in a document and in the one inside it. -/
def circular : Document :=
  { entangled with
    nodes := headerAndList
    footnotes := ⟨entangled.footnotes.entries ++ [⟨"a", [.footnoteReference "a" true]⟩]⟩
    detail := some { entangled with nodes := headerAndList } }

theorem terminates_circular :
    (∀ evaluate, textSetting.extensions.evaluator? = some evaluate → evaluate.NeverNests) ∧
      circular.footnotes.size = 3 ∧ circular.footnotes.distinct = 2 ∧
      renderUntil textSetting 0 circular false none = renderUntil textSetting 4 circular false none ∧
      ((renderUntil textSetting 0 circular false none).run TreeBuilder.empty).1 ≠ .error .tooDeep ∧
      circular.footnotes.numberFrom? 2 3 0 (Numbering.addAll ∅ ["a"]) =
        some (circular.footnotes.numberNested (Numbering.addAll ∅ ["a"])) := by
  have he (evaluate : Evaluator) (h : textSetting.extensions.evaluator? = some evaluate) : evaluate.NeverNests := by
    cases h
    exact fun _ _ h => by cases h
  have hd : circular.footnotes.distinct = 2 := by decide
  obtain ⟨hl, ht, -, -, hn, -⟩ := Render.terminates circular he 0
  exact ⟨he, rfl, hd, hl 4 false none, ht _ false none, hn 2 3 _ (Nat.le_of_eq hd) (by rw [hd]; decide)⟩

end XamlDoc
