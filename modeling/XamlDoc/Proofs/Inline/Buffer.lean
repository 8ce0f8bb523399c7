import XamlDoc.Proofs.Inline.Spans
import XamlDoc.Proofs.Markup.Whole
import Mathlib.Data.List.DropRight

/-!
# The buffer of runs

Whatever has been done to a buffer of runs, it holds what was appended since it was emptied last, and a flush writes
that. A flush takes out what it writes before its first call, so that nothing waits after it even if a call is refused.
-/

namespace XamlDoc

open Markup

/-- A program over a buffer and a writer. What it has done to the buffer stays done when it ends with an error. -/
abbrev Buffering := ExceptT WriteError (StateT RunBuffer Writing)

inductive BufferStep where
  | append (r : Run) (alignment : Alignment)
  | comment (text : String)
  | clear
  | flush (profile : Profile)

namespace Buffering

def write (calls : List Call) : Buffering Unit := ExceptT.mk (StateT.lift (Writing.calls calls))

def flush (profile : Profile) : Buffering Unit := do
  let b ← modifyGet fun b => (b, ∅)
  write (b.calls profile)

def perform : BufferStep → Buffering Unit
  | .append r alignment => modify fun b => b.append r alignment
  | .comment t => modify fun b => b.appendComment t
  | .clear => set (∅ : RunBuffer)
  | .flush profile => flush profile

/-- Perform the steps in order and go on after errors. -/
def performAll : List BufferStep → StateT RunBuffer Writing (List (Except WriteError Unit))
  | [] => pure []
  | s :: r => do
    let answer ← (perform s).run
    return answer :: (← performAll r)

end Buffering

/-- What a rendering does to its buffer when it flushes. -/
theorem Rendering.flush_eq (profile : Profile) (p : Progress) :
    Rendering.flush profile p = (Buffering.flush profile p.runs).bind fun
      | (.ok a, b) => .done (.ok (a, { p with runs := b }))
      | (.error e, _) => .done (.error (.write e)) := by
  show (Writing.calls (p.runs.calls profile)).bind _ = ((Writing.calls (p.runs.calls profile)).bind _).bind _
  rw [Writing.bind_assoc]
  refine congrArg (Writing.bind _) (funext fun answer => ?_)
  cases answer <;> rfl

/-! ### Steps of a plain buffer -/

namespace BufferStep

def empties : BufferStep → Bool
  | .clear | .flush _ => true
  | .append _ _ | .comment _ => false

def item? : BufferStep → Option RunItem
  | .append r _ => some (.run r)
  | .comment t => some (.comment t)
  | .clear | .flush _ => none

/-- The alignment of a run that is appended. -/
def alignment? : BufferStep → Option Alignment
  | .append _ a => some a
  | .comment _ | .clear | .flush _ => none

/-- The steps since the buffer was emptied last. -/
def since (steps : List BufferStep) : List BufferStep := steps.rtakeWhile fun s => !s.empties

/-- What a flush writes when these steps have been made since the buffer was emptied. -/
def host (profile : Profile) (steps : List BufferStep) : List Content :=
  let content := (steps.filterMap item?).map (RunItem.content profile)
  match steps.findSome? alignment? with
  | some a =>
    [.element "Label" [("LineBreakMode", "WordWrap"), ("HorizontalTextAlignment", a.ofLabel)]
      [.element "Label.FormattedText" [] [.element "FormattedString" [] content]]]
  | none => content

/-- What the flushes among the steps write, when other steps have been made before. -/
def written (before : List BufferStep) : List BufferStep → List Content
  | [] => []
  | s :: r =>
    (match s with
      | .flush profile => host profile (since before)
      | _ => []) ++ written (before ++ [s]) r

theorem since_concat {s : BufferStep} (h : s.empties = false) (steps : List BufferStep) :
    since (steps ++ [s]) = since steps ++ [s] :=
  List.rtakeWhile_concat_pos _ _ _ (by rw [h]; rfl)

theorem since_emptied {s : BufferStep} (h : s.empties = true) (steps : List BufferStep) : since (steps ++ [s]) = [] :=
  List.rtakeWhile_concat_neg _ _ _ (by rw [h]; decide)

end BufferStep

open BufferStep

/-! ### What the buffer holds -/

namespace RunBuffer

/-- The buffer after a step. -/
def next (b : RunBuffer) : BufferStep → RunBuffer
  | .append r alignment => b.append r alignment
  | .comment t => b.appendComment t
  | .clear | .flush _ => ∅

/-- The buffer after some steps, when it was empty before. -/
def ofSteps (steps : List BufferStep) : RunBuffer := steps.foldl next ∅

theorem ofSteps_concat (steps : List BufferStep) (s : BufferStep) : ofSteps (steps ++ [s]) = (ofSteps steps).next s :=
  List.foldl_concat ..

theorem items_ofSteps (steps : List BufferStep) : (ofSteps steps).items = (since steps).filterMap item? := by
  induction steps using List.reverseRecOn with
  | nil => rfl
  | append_singleton steps s ih =>
    rw [ofSteps_concat]
    cases s with
    | append _ _ | comment _ =>
      rw [since_concat rfl, List.filterMap_append, ← ih]
      exact List.reverse_cons
    | clear | flush _ =>
      rw [since_emptied rfl]
      rfl

theorem alignment?_ofSteps (steps : List BufferStep) :
    (ofSteps steps).alignment? = (since steps).findSome? BufferStep.alignment? := by
  induction steps using List.reverseRecOn with
  | nil => rfl
  | append_singleton steps s ih =>
    rw [ofSteps_concat]
    cases s with
    | append _ _ =>
      rw [since_concat rfl, List.findSome?_append, ← ih]
      rfl
    | comment _ =>
      rw [since_concat rfl, List.findSome?_append, ← ih]
      exact Option.or_none.symm
    | clear | flush _ =>
      rw [since_emptied rfl]
      rfl

theorem hasNoRun_ofSteps (steps : List BufferStep) :
    (ofSteps steps).hasNoRun = ((since steps).findSome? BufferStep.alignment?).isNone := by
  have hi : (ofSteps steps).waiting.any RunItem.isRun = ((since steps).filterMap item?).any RunItem.isRun := by
    rw [← List.any_reverse, ← items_ofSteps]
    rfl
  rw [hasNoRun, hi, ← Option.not_isSome, List.isSome_findSome?, List.any_filterMap]
  congr 2
  funext s
  cases s <;> rfl

theorem calls_ofSteps (profile : Profile) (steps : List BufferStep) :
    (ofSteps steps).calls profile = Content.allCalls (host profile (since steps)) := by
  have hc : (ofSteps steps).contents profile = host profile (since steps) := by
    rw [contents, host, items_ofSteps, hasNoRun_ofSteps, alignment?_ofSteps]
    cases (since steps).findSome? BufferStep.alignment? <;> rfl
  rw [RunBuffer.calls_eq, hc]

end RunBuffer

/-! ### Runs of steps -/

namespace Buffering

open RunBuffer

/-- The calls of a step. -/
def calls (b : RunBuffer) : BufferStep → List Call
  | .flush profile => b.calls profile
  | _ => []

theorem perform_apply (s : BufferStep) (b : RunBuffer) :
    perform s b = (Writing.calls (calls b s)).bind fun answer => .done (answer, b.next s) := by
  cases s <;> rfl

theorem performAll_cons (s : BufferStep) (r : List BufferStep) (b : RunBuffer) :
    performAll (s :: r) b = (Writing.calls (calls b s)).bind fun answer =>
      (performAll r (b.next s)).bind fun (answers, b') => .done (answer :: answers, b') := by
  show (perform s b).bind _ = _
  rw [perform_apply, Writing.bind_assoc]
  rfl

/-- What the buffer holds after some steps does not depend on the writer's answers. -/
theorem buffer_performAll {σ : Type} [Writer σ] (steps : List BufferStep) (b : RunBuffer) (w : σ) :
    ((performAll steps b).run w).1.2 = steps.foldl next b := by
  induction steps generalizing b w with
  | nil => rfl
  | cons s r ih =>
    rw [performAll_cons, Writing.run_bind, Writing.run_bind, List.foldl_cons]
    exact ih (b.next s) _

theorem run_calls (steps : List BufferStep) (s : BufferStep) (b : TreeBuilder) :
    (Writing.calls (calls (ofSteps steps) s)).run b = (.ok (), (written steps [s]).foldl TreeBuilder.push b) := by
  cases s with
  | flush profile =>
    have ha := accepted_allCalls (w := b) trivial (host profile (since steps))
    rw [calls, calls_ofSteps, Writing.run_of_made ha.answer ha.made, TreeBuilder.after_allCalls, written, written,
      List.append_nil]
  | append _ _ | comment _ | clear => rfl

theorem tree_performAll (before steps : List BufferStep) (b : TreeBuilder) :
    let r := (performAll steps (ofSteps before)).run b
    (∀ answer ∈ r.1.1, answer = .ok ()) ∧ r.2 = (written before steps).foldl TreeBuilder.push b := by
  induction steps generalizing before b with
  | nil => exact ⟨nofun, rfl⟩
  | cons s r ih =>
    let rest := (performAll r (ofSteps (before ++ [s]))).run ((written before [s]).foldl TreeBuilder.push b)
    obtain ⟨hanswers, htree⟩ : (∀ answer ∈ rest.1.1, answer = .ok ()) ∧ rest.2 = _ := ih (before ++ [s]) _
    have hr : (performAll (s :: r) (ofSteps before)).run b = ((.ok () :: rest.1.1, rest.1.2), rest.2) := by
      rw [performAll_cons, Writing.run_bind, run_calls, Writing.run_bind, ← ofSteps_concat]
      rfl
    rw [hr]
    refine ⟨List.forall_mem_cons.2 ⟨rfl, hanswers⟩, htree.trans ?_⟩
    rw [← List.foldl_append]
    simp only [written, List.append_nil]

/-- Whatever steps are made from an empty buffer, no call on a tree is refused, and just the flushes write: each one
what was appended since the buffer was emptied last. Whatever a writer has answered to the steps, there is a run in the
buffer if one was appended since then, and a flush to any writer makes the calls for what was appended since then, up to
the first that is refused, and leaves the buffer empty. -/
theorem buffer_refines_list (steps : List BufferStep) :
    (∀ b : TreeBuilder,
      let r := (performAll steps ∅).run b
      (∀ answer ∈ r.1.1, answer = .ok ()) ∧ r.2 = (written [] steps).foldl TreeBuilder.push b) ∧
    ∀ {σ : Type} [Writer σ] (w : σ),
      let buffer := ((performAll steps ∅).run w).1.2
      (buffer.hasNoRun = true ↔ ∀ s ∈ since steps, s.alignment? = none) ∧
        ∀ {τ : Type} [Writer τ] (v : τ) (profile : Profile),
          let f := (flush profile buffer).run v
          (f.1.1, f.2) = (Writing.calls (Content.allCalls (host profile (since steps)))).run v ∧ f.1.2 = ∅ := by
  refine ⟨tree_performAll [] steps, fun w => ?_⟩
  intro buffer
  have hb : buffer = ofSteps steps := buffer_performAll steps ∅ w
  rw [hb]
  refine ⟨?_, fun v profile => ?_⟩
  · rw [hasNoRun_ofSteps, Option.isNone_iff_eq_none, List.findSome?_eq_none_iff]
  · intro f
    let g := (Writing.calls (Content.allCalls (host profile (since steps)))).run v
    have hf : f = ((g.1, ∅), g.2) := by
      show (perform (.flush profile) (ofSteps steps)).run v = _
      rw [perform_apply, calls, calls_ofSteps, Writing.run_bind]
      rfl
    rw [hf]
    exact ⟨rfl, rfl⟩

end Buffering

end XamlDoc
