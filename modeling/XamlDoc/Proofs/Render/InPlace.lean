import XamlDoc.Proofs.Render.Agreement
import XamlDoc.Proofs.Render.Stacked

/-!
# Footnotes in place

What is rendered in the scopes of different stacks, each with the content of footnotes that are not being expanded,
is one rendering with a stack. It is so for references, for nodes and for documents, whose stack is empty before and
after them. As many levels of a scope as there are keys are enough for any stack.
-/

namespace XamlDoc

open Markup (Writing)
open Rendering Layout Render

/-- No expression stands for a document. -/
def Evaluator.NeverNests (evaluate : Evaluator) : Prop :=
  ∀ expression D, (evaluate expression).result ≠ .ok (.document D)

/-! ### Levels -/

namespace Footnotes.Stack

variable {t : Footnotes} {e : t.Stack} {key : String} {f : Footnote}

theorem exists_begin? (hf : t.get? key = some f) (hk : key ∉ e.keys) :
    ∃ inside, e.begin? key = some inside ∧ inside.keys = key :: e.keys := by
  cases hb : e.begin? key with
  | none => exact (hk (begin?_eq_none hb (declares_of_get? hf))).elim
  | some inside => exact ⟨inside, rfl, keys_of_begin? hb⟩

/-- Nothing stands in place of footnotes if all keys are on the stack. -/
theorem inPlace_eq_none (hl : t.distinct ≤ e.keys.length) {β : Type} (g : Footnote → β) :
    (if key ∈ e.keys then none else (t.get? key).map g) = none := by
  split
  · rfl
  · rename_i hk
    refine Option.eq_none_iff_forall_ne_some.2 fun b hb => ?_
    obtain ⟨f, hf, -⟩ := Option.map_eq_some_iff.1 hb
    obtain ⟨inside, -, hi⟩ := exists_begin? hf hk
    have hle := inside.length_le
    rw [hi, List.length_cons] at hle
    omega

/-- What stands in place of footnotes is the same in scopes that are the same with one footnote more on the stack. -/
theorem inPlace_congr (e : t.Stack) {σ β : Type} (scope scope' : List String → σ) (g : σ → Footnote → β)
    (h : ∀ inside : t.Stack, inside.keys.length = e.keys.length + 1 → scope inside.keys = scope' inside.keys) :
    (if key ∈ e.keys then none else (t.get? key).map (g (scope (key :: e.keys)))) =
      if key ∈ e.keys then none else (t.get? key).map (g (scope' (key :: e.keys))) := by
  split
  · rfl
  · rename_i hk
    cases hf : t.get? key with
    | none => rfl
    | some f =>
      obtain ⟨inside, -, hi⟩ := exists_begin? hf hk
      rw [← hi, h inside (congrArg List.length hi)]

end Footnotes.Stack

namespace Html

variable {levels : Nat}

/-- The scopes of a document differ in what stands in place. -/
theorem expanding_ext {s : Scope} {levels levels' : Nat} {expanding expanding' : List String}
    (h : ∀ key, (s.expanding levels expanding).inPlace key = (s.expanding levels' expanding').inPlace key) :
    s.expanding levels expanding = s.expanding levels' expanding' := by
  have hs (levels : Nat) (expanding : List String) :
      s.expanding levels expanding = { s with inPlace := (s.expanding levels expanding).inPlace } := by
    cases levels <;> rfl
  rw [hs levels, hs levels', funext h]

/-- One more level makes no difference if there is one for every key that is not on the stack. -/
theorem expanding_succ (s : Scope) (e : s.document.footnotes.Stack)
    (hl : s.document.footnotes.distinct ≤ levels + e.keys.length) :
    s.expanding (levels + 1) e.keys = s.expanding levels e.keys := by
  induction levels generalizing e with
  | zero =>
    refine expanding_ext fun key => ?_
    rw [inPlace_expanding, e.inPlace_eq_none (by omega)]
    rfl
  | succ levels ih =>
    refine expanding_ext fun key => ?_
    rw [inPlace_expanding, inPlace_expanding]
    exact e.inPlace_congr (s.expanding (levels + 1)) (s.expanding levels)
      (fun s f => footnoteContent s f.content) fun inside hi => ih inside (by omega)

end Html

namespace Render

variable {levels : Nat}

theorem inPlace_expandingScope (s : Scope) (expanding : List String) (key : String) :
    (expandingScope s (levels + 1) expanding).inPlace key =
      if key ∈ expanding then none
      else (s.document.footnotes.get? key).map fun f =>
        footnoteContent (expandingScope s levels (key :: expanding)) f.content := by
  simp only [expandingScope, List.contains_eq_mem, decide_eq_true_eq]

theorem expandingScope_ext {s : Scope} {levels levels' : Nat} {expanding expanding' : List String}
    (hh : s.html.expanding levels expanding = s.html.expanding levels' expanding')
    (h : ∀ key, (expandingScope s levels expanding).inPlace key = (expandingScope s levels' expanding').inPlace key) :
    expandingScope s levels expanding = expandingScope s levels' expanding' := by
  have hs (levels : Nat) (expanding : List String) : expandingScope s levels expanding =
      { s with
        inPlace := (expandingScope s levels expanding).inPlace
        html := s.html.expanding levels expanding } := by
    cases levels <;> rfl
  rw [hs levels, hs levels', funext h, hh]

theorem expandingScope_succ {s : Scope} {t : Footnotes} (hs : s.document.footnotes = t)
    (hh : s.html.document.footnotes = t) (e : t.Stack) (hl : t.distinct ≤ levels + e.keys.length) :
    expandingScope s (levels + 1) e.keys = expandingScope s levels e.keys := by
  have html (e : t.Stack) (levels : Nat) (hl : t.distinct ≤ levels + e.keys.length) :
      s.html.expanding (levels + 1) e.keys = s.html.expanding levels e.keys := by
    subst hh
    exact Html.expanding_succ s.html e hl
  induction levels generalizing e with
  | zero =>
    refine expandingScope_ext (html e 0 hl) fun key => ?_
    rw [inPlace_expandingScope, hs, e.inPlace_eq_none (by omega)]
    rfl
  | succ levels ih =>
    refine expandingScope_ext (html e _ hl) fun key => ?_
    rw [inPlace_expandingScope, inPlace_expandingScope, hs]
    exact e.inPlace_congr (expandingScope s (levels + 1)) (expandingScope s levels)
      (fun s f => footnoteContent s f.content) fun inside hi => ih inside (by omega)

/-- As many levels as there are keys are enough. -/
theorem expandingScope_eq_of_le {s : Scope} {t : Footnotes} (hs : s.document.footnotes = t)
    (hh : s.html.document.footnotes = t) (e : t.Stack) (hl : t.distinct ≤ levels) :
    expandingScope s levels e.keys = expandingScope s t.distinct e.keys := by
  induction hl with
  | refl => rfl
  | step hl ih => exact (expandingScope_succ hs hh e (Nat.le_add_right_of_le hl)).trans ih

end Render

/-! ### Passes -/

/-- The stacks that hold all different keys but at most `n`. -/
def Footnotes.Within (t : Footnotes) (n : Nat) : Type := { e : t.Stack // t.distinct ≤ n + e.keys.length }

/-- A declared footnote is being expanded, or it is begun, and then one key less is left. -/
theorem Footnotes.Within.begin_cases {t : Footnotes} {n : Nat} (e : t.Within (n + 1)) {key : String} {f : Footnote}
    (hf : t.get? key = some f) :
    (e.1.begin? key = none ∧ key ∈ e.1.keys) ∨
      ∃ inside : t.Within n, e.1.begin? key = some inside.1 ∧ key ∉ e.1.keys ∧
        inside.1.keys = key :: e.1.keys ∧ inside.1.finish = e.1 := by
  cases hb : e.1.begin? key with
  | none => exact .inl ⟨rfl, Stack.begin?_eq_none hb (declares_of_get? hf)⟩
  | some inside =>
    have hi := Stack.keys_of_begin? hb
    have hl : t.distinct ≤ n + inside.keys.length := by
      have he := e.2
      rw [hi, List.length_cons]
      omega
    have hk : key ∉ e.1.keys := (List.nodup_cons.1 (hi ▸ inside.nodup)).1
    exact .inr ⟨⟨inside, hl⟩, rfl, hk, hi, Stack.finish_of_begin? hb⟩

variable {ι : Type} {t : Footnotes} {stack : ι → t.Stack} {n : Nat}

namespace Html

/-- Passes, one for each stack, that are one pass with the stack, which is then as before. -/
def OnStack (stack : ι → t.Stack) (n : Nat) (α : Type) (m : ι → Pass α) (_ : List String) : Prop :=
  ∃ S : Stacked t α, Steps t n α S ∧ ∀ x p, S p (stack x) = (m x p, stack x)

abbrev OnStacks (t : Footnotes) (n : Nat) := OnStack (fun e : t.Within n => e.1) n

namespace OnStack

variable {α : Type} {k : List String}

theorem step {m : Pass α} (h : Step α m) : OnStack stack n α (fun _ => m) k := ⟨.blind m, .step h, fun _ _ => rfl⟩

theorem abreast : Abreast (OnStack stack n) := by
  refine .ofSteps step fun {_ _ m f _ _} hm hf => ?_
  obtain ⟨S, hS, hm⟩ := hm
  choose F hF hf using hf
  refine ⟨S.andThen F, hS.andThen hF, fun x p => ?_⟩
  show _ = ((m x >>= f x) p, stack x)
  rw [Stacked.andThen, hm, bind_apply]
  cases m x p with
  | ok r => exact hf r.1 x r.2
  | error _ => rfl

/-- A reference expands its footnote in the scope of any stack, or gives its number, as it does with the stack. -/
theorem reference {s : Scope} {key : String} {f : Footnote} (hf : s.document.footnotes.get? key = some f)
    (hc : OnStacks s.document.footnotes n _
      (fun e => footnoteContent (s.expanding n e.1.keys) f.content) k) (autoExpand : Bool) :
    OnStacks s.document.footnotes (n + 1) _
      (fun e => footnoteReference (s.expanding (n + 1) e.1.keys) key autoExpand) [] := by
  have h : Abreast (OnStacks s.document.footnotes (n + 1)) := abreast
  have hn := h.number (step (.reference key))
  cases autoExpand with
  | false =>
    simp only [footnoteReference, expanding_document, hf]
    exact hn
  | true =>
    obtain ⟨C, hC, hc⟩ := hc
    obtain ⟨N, hN, hn⟩ := hn
    refine ⟨.reference key C N, .reference hC hN, fun e p => ?_⟩
    simp only [footnoteReference, expanding_document, hf, if_true, inPlace_expanding, Stacked.reference]
    obtain ⟨hb, hk⟩ | ⟨inside, hb, hk, hi, hfin⟩ := e.begin_cases hf
    · rw [hb, if_pos hk]
      exact hn e p
    · have hin := hc inside p
      rw [hb, if_neg hk, Option.map_some, ← hi]
      simp only [hin, hfin]

variable {s : Scope} (he : ∀ evaluate, s.evaluator? = some evaluate → evaluate.NeverNests)
include he

theorem expanding (n : Nat) : Together (fun _ => .unlimited) (OnStacks s.document.footnotes n) s.document
    (fun _ => True) (fun e => s.expanding n e.1.keys) fun _ => [] := by
  have hd (levels : Nat) (expanding : List String) : (s.expanding levels expanding).document = s.document :=
    expanding_document ..
  have hp (levels : Nat) (expanding : List String) : (s.expanding levels expanding).profile = s.profile := by
    cases levels <;> rfl
  have script (n : Nat) (expression : String) :
      OnStacks s.document.footnotes n _
        (fun e => script (s.expanding n e.1.keys) expression) [] :=
    abreast.script (fun _ => expanding_evaluator? ..) (fun _ => hp ..)
      (fun evaluate d hs hd => (he evaluate hs expression d hd).elim) (fun _ _ _ => step (.cancel _))
  induction n with
  | zero =>
    refine ⟨fun _ => congrArg _ (hd ..), fun _ => congrArg _ (hd ..), fun key autoExpand => ?_,
      fun {e _} _ => script 0 e, fun _ ht => abreast.table ht⟩
    exact abreast.footnoteReference (s := fun e => s.expanding 0 e.1.keys) (fun _ => rfl) (step (.reference key))
      (.inl fun _ => rfl) autoExpand
  | succ n ih =>
    refine ⟨fun _ => congrArg _ (hd ..), fun _ => congrArg _ (hd ..), fun key autoExpand => ?_,
      fun {e _} _ => script (n + 1) e, fun _ ht => abreast.table ht⟩
    cases hf : s.document.footnotes.get? key with
    | none =>
      simp only [footnoteReference, expanding_document, hf]
      exact step (.done [])
    | some f =>
      have hc := ih.footnoteContent abreast (c := s.sight fun _ => false) rfl (l := f.content)
        fun n _ => n.throughout_true
      exact reference hf hc autoExpand

end OnStack

end Html

/-! ### Renderings -/

namespace Render

/-- Renderings, one for each stack, that are one rendering with the stack, which is then as before. -/
def OnStack (stack : ι → t.Stack) (n : Nat) (α : Type) (m : ι → Rendering α) : Prop :=
  ∃ S : Stacked t α, Steps t n α S ∧ ∀ x p, S p (stack x) = Writing.bind (m x p) fun r => .done (r, stack x)

abbrev OnStacks (t : Footnotes) (n : Nat) := OnStack (fun e : t.Within n => e.1) n

namespace OnStack

variable {α β : Type}

theorem ofPass {m : ι → Html.Pass α} {k : List String} (h : Html.OnStack stack n α m k) :
    OnStack stack n α fun x => ofPass (m x) := by
  obtain ⟨S, hS, hm⟩ := h
  refine ⟨.ofPass S, .ofPass hS, fun x p => ?_⟩
  simp only [Stacked.ofPass, Rendering.ofPass, hm]
  cases m x p.traversal <;> rfl

theorem stepwise : Stepwise (OnStack stack n) where
  step h := ⟨.blind _, .step h, fun _ _ => rfl⟩
  pass h := ofPass (k := []) (Html.OnStack.step h)
  andThen {_ _ m f} hm hf := by
    obtain ⟨S, hS, hm⟩ := hm
    choose F hF hf using hf
    refine ⟨S.andThen F, hS.andThen hF, fun x p => ?_⟩
    show _ = Writing.bind ((m x >>= f x) p) _
    rw [Stacked.andThen, hm, bind_apply, Writing.bind_assoc, Writing.bind_assoc]
    congr 1
    funext r
    cases r with
    | ok r => exact hf r.1 x r.2
    | error _ => rfl

/-- A document inside another leaves the stack of the other one as it is. -/
theorem nested {t' : Footnotes} {n' : Nat} {m : Rendering α}
    (h : OnStack (fun _ : Unit => (∅ : t'.Stack)) n' α fun _ => m) : OnStack stack n α fun _ => m := by
  obtain ⟨S, hS, hm⟩ := h
  refine ⟨S.nested, hS.nested, fun x p => ?_⟩
  rw [Stacked.nested, hm () p, Writing.bind_assoc]
  rfl

/-- A reference expands its footnote in the scope of any stack, or gives its number, as it does with the stack. -/
theorem reference {s : Scope} {key : String} {f : Footnote} (hs : s.document.footnotes = t)
    (hf : t.get? key = some f) (st : Style)
    (hc : OnStacks t n Unit
      fun e => footnoteContent (expandingScope s n e.1.keys) f.content st) (autoExpand : Bool) :
    OnStacks t (n + 1) Unit
      fun e => footnoteReference (expandingScope s (n + 1) e.1.keys) st key autoExpand := by
  have steps : Stepwise (OnStacks t (n + 1)) := stepwise
  have hn : OnStacks t (n + 1) Unit (fun _ => do
      let number ← Rendering.ofPass (modifyGet fun t => t.reference key)
      text (toString number) { st with superscript := true }) :=
    steps.andThen (steps.pass (.reference key)) fun _ => (steps.abreast s.dialect).text _ _
  cases autoExpand with
  | false =>
    simp only [footnoteReference, expandingScope_document, hs, hf]
    exact hn
  | true =>
    obtain ⟨C, hC, hc⟩ := hc
    obtain ⟨N, hN, hn⟩ := hn
    refine ⟨.reference key C N, .reference hC hN, fun e p => ?_⟩
    simp only [footnoteReference, expandingScope_document, hs, hf, if_true, inPlace_expandingScope,
      Stacked.reference]
    obtain ⟨hb, hk⟩ | ⟨inside, hb, hk, hi, hfin⟩ := e.begin_cases hf
    · rw [hb, if_pos hk]
      exact hn e p
    · have hin := hc inside p
      rw [hb, if_neg hk, Option.map_some, ← hi]
      simp only [hin, Writing.bind_assoc]
      rw [← hfin]
      rfl

end OnStack

/-! ### Documents -/

section

variable {S : Setting} (he : ∀ evaluate, S.extensions.evaluator? = some evaluate → evaluate.NeverNests)
  {nested : Document → Rendering Unit} {nestedHtml : Document → Html.Part} {D : Document}
  {detail? : Option (Rendering Unit)}
  (hm : ∀ m, detail? = some m →
    ∃ t' : Footnotes, ∃ n', OnStack (fun _ : Unit => (∅ : t'.Stack)) n' Unit fun _ => m)
include he hm

theorem onStack_expandingScope (n : Nat) :
    Together (fun _ => .unlimited) (fun _ _ => OnStacks D.footnotes n) (fun _ => S.dialect) D (fun _ => True)
      fun e => expandingScope (bareScope S nested nestedHtml D detail?) n e.1.keys := by
  let base := bareScope S nested nestedHtml D detail?
  let s (n : Nat) (e : D.footnotes.Within n) : Scope := expandingScope base n e.1.keys
  have steps (n : Nat) : Stepwise (OnStacks D.footnotes n) := OnStack.stepwise
  have h (n : Nat) := (steps n).abreast S.dialect
  have detail (n : Nat) (e : D.footnotes.Within n) : (s n e).detail? = detail? := by
    cases n <;> rfl
  have html (n : Nat) {l : List Node} (hl : ∀ n ∈ l, n.Throughout fun _ => True) : OnStacks D.footnotes n _
      fun e => Rendering.ofPass (Html.nodes (s n e).html l) := by
    simp only [s, expandingScope_html]
    have hh := Html.OnStack.expanding (s := base.html) he n
    exact OnStack.ofPass (hh.all Html.OnStack.abreast (c := ⟨fun _ => false, D.references⟩) rfl hl)
  have scope (n : Nat) := ((steps n).settings S).scope (h n) (M := fun _ => .unlimited) (A := fun _ => True)
    (s := s n) (D := D) (fun _ ht => (h n).table ht)
    (fun _ => expandingScope_setting ..)
    (fun _ => by rw [expandingScope_document]; rfl) (fun _ => by rw [expandingScope_document]; rfl)
    (fun {expression _} _ evaluate d hs hd => (he evaluate hs expression d hd).elim)
    (by
      simp only [detail]
      cases detail? with
      | none => exact .inl fun _ => rfl
      | some m =>
        obtain ⟨t', n', hm⟩ := hm m rfl
        exact .inr ⟨fun _ => m, fun _ => rfl, hm.nested⟩)
  -- the content of a footnote is rendered with one key less left
  induction n with
  | zero =>
    refine scope 0 (fun st key autoExpand => ?_) (html 0)
    exact (h 0).footnoteReference (s := s 0) (fun _ => rfl) (.inl fun _ => rfl) st autoExpand
  | succ n ih =>
    refine scope (n + 1) (fun st key autoExpand => ?_) (html (n + 1))
    cases hf : D.footnotes.get? key with
    | none =>
      simp only [s, footnoteReference, expandingScope_document, base, bareScope, hf]
      exact (h (n + 1)).done .flowing ()
    | some f =>
      have hc := ih.footnoteContent (h n) (l := f.content) (fun m _ => m.throughout_true) st
      exact OnStack.reference (s := base) rfl hf st hc autoExpand

/-- A document begins with an empty stack, on which there never are more footnotes than keys, and ends with one. -/
theorem onStack_body : OnStack (fun _ : Unit => (∅ : D.footnotes.Stack)) D.footnotes.distinct Unit
    fun _ => body (documentScope S nested nestedHtml D detail?) := by
  have hs : documentScope S nested nestedHtml D detail? =
      expandingScope (bareScope S nested nestedHtml D detail?) D.footnotes.distinct [] :=
    expandingScope_eq_of_le (s := bareScope S nested nestedHtml D detail?) rfl rfl (∅ : D.footnotes.Stack)
      Footnotes.distinct_le_size
  obtain ⟨C, hC, hc⟩ := (onStack_expandingScope he hm D.footnotes.distinct).body
    (OnStack.stepwise.abreast S.dialect) (fun _ => expandingScope_document ..) D.throughout_true
  rw [hs]
  exact ⟨C, hC, fun _ => hc ⟨∅, Nat.le_add_right _ _⟩⟩

end

variable {S : Setting} (he : ∀ evaluate, S.extensions.evaluator? = some evaluate → evaluate.NeverNests)
include he

theorem onStack_included (nested : Document → Rendering Unit) (nestedHtml : Document → Html.Part) (D : Document) :
    OnStack (fun _ : Unit => (∅ : D.footnotes.Stack)) D.footnotes.distinct Unit
      fun _ => included S nested nestedHtml D := by
  obtain ⟨nodes, footnotes, references, detail?, metadata⟩ := D
  cases detail? with
  | none => exact onStack_body he (fun _ hm => by cases hm)
  | some detail =>
    refine onStack_body he fun m hm => ?_
    cases hm
    exact ⟨_, _, onStack_included nested nestedHtml detail⟩

theorem onStack_document (limit : Nat) (D : Document) (inclusion : Bool) :
    OnStack (fun _ : Unit => (∅ : D.footnotes.Stack)) D.footnotes.distinct Unit
      fun _ => document S limit D inclusion := by
  have hi := onStack_included he (scriptDocument S limit)
    (Html.nestedDocument S.extensions.evaluator? S.dialect.profile limit) D
  simp only [document]
  split
  · exact hi
  · exact (OnStack.stepwise.abreast S.dialect).element Common.root hi

end Render

end XamlDoc
