import Mathlib.Control.Monad.Basic
import XamlDoc.Proofs.Render.Balance
import XamlDoc.Proofs.Render.Following

/-!
# Cancellation

A cancelled rendering makes the first calls of the same rendering with a token that nobody looks at, and
then closes what is open. It is cancelled at the first node that is reached after the token has fired, and
not at all if there is none.
-/

namespace XamlDoc

open Markup Gauged

/-! ### Nodes that are refused -/

namespace Html

theorem node_eq_visit (s : Scope) (n : Node) : ∃ m, node s n = visit m := by
  cases n with
  | multimedia items l alone => cases items <;> exact ⟨_, rfl⟩
  | _ => exact ⟨_, rfl⟩

/-- No node is reached after the token has fired. -/
theorem node_refused (s : Scope) (n : Node) {t : Traversal} (h : t.stops = true) :
    node s n t = .error .cancelled := by
  obtain ⟨m, hm⟩ := node_eq_visit s n
  rw [hm, visit_apply, if_pos h]

end Html

namespace Render

open Rendering

theorem node_eq_visit (s : Scope) (n : Node) (st : Style) : ∃ m, node s n st = visit m := by
  cases n with
  | singleChild m =>
    rw [node, spanOrBlock]
    split <;> exact ⟨_, rfl⟩
  | nestedBlock l =>
    rw [node]
    split <;> exact ⟨_, rfl⟩
  | standalone m => cases m <;> exact ⟨_, rfl⟩
  | _ => exact ⟨_, rfl⟩

/-- A node that is reached after the token has fired writes nothing, neither itself nor the runs that wait. -/
theorem node_refused (s : Scope) (n : Node) (st : Style) {p : Progress}
    (h : p.traversal.stops = true) : node s n st p = .done (.error .cancelled) := by
  obtain ⟨m, hm⟩ := node_eq_visit s n st
  rw [hm, visit_apply, if_pos h]
  rfl

theorem html_cancelled (s : Scope) (st : Style) (extra : List Attribute) (l : List Node) {p : Progress}
    (h : Html.nodes s.html l p.traversal = .error .cancelled) :
    html s st extra l p = .done (.error .cancelled) := by
  rw [html, bind_apply, ofPass, h]
  rfl

end Render

/-! ### Whole renderings -/

section

variable {σ : Type} [Writer σ]

/-- The handler for images leaves the token alone. -/
theorem Extensions.BuiltIn.idle {x : Extensions} (hx : x.BuiltIn) (he : Html.Idle x.evaluator?) : x.Idle σ := by
  refine ⟨he, fun {handler} context w ho => ?_⟩
  obtain ⟨item, rfl⟩ := hx.offers ho
  rw [imageHandler]
  split
  · rfl
  · rw [Writing.run_bind]
    cases (Writing.run (Writing.calls item.image.calls) w).1 <;> rfl

/-- The run `r` was cancelled where the run `e` went on, and closed what was open. -/
structure Truncated (e r : Writing (Except RenderError Unit)) (w : σ) : Prop where
  cancelled : (r.run w).1 = .error .cancelled
  calls : ∃ before, before <+: e.made w ∧
    let left := Writer.depth (Writer.after before w)
    r.made w = before ++ List.replicate (left - Writer.depth w) .close ∧
      Writer.depth (r.run w).2 = min left (Writer.depth w)

/-- One of the nodes that are reached is reached after the token has fired: who looks at the token just there
finds it so. -/
def Overruns (setting : Setting) (limit : Nat) (d : Document) (inclusion : Bool) (fuse? : Option Nat)
    (w : σ) : Prop :=
  ∃ n, ((renderFrom setting limit d inclusion (.watching (.once n) fuse?)).run w).1 = .error .cancelled

variable {w : σ} {setting : Setting} {limit : Nat} {d : Document} {inclusion : Bool} {t u : Traversal}

theorem unwound_of_sameEnd {v : Watch} {a b : Except RenderError (Unit × Progress)}
    (h : Rendering.SameEnd v a b) (depth : Nat) : unwound depth b = unwound depth a := by
  cases h <;> rfl

theorem unwound_not_cancelled {v : Watch} {a b : Except RenderError (Unit × Progress)}
    (h : Rendering.SameEnd v a b) (depth : Nat) (w : σ) :
    ((unwound depth a).run w).1 ≠ .error .cancelled := by
  cases h with
  | ok _ _ => nofun
  | error he =>
    rw [run_unwound_error]
    exact fun hc => he (Except.error.inj hc)

theorem renderFrom_inStep {v : Watch} (h : Rendering.InStep v w
    (Render.document setting limit d inclusion ⟨t, ∅⟩) (Render.document setting limit d inclusion ⟨u, ∅⟩)) :
    let e := renderFrom setting limit d inclusion t
    let r := renderFrom setting limit d inclusion u
    r.run w = e.run w ∧ r.made w = e.made w ∧ (e.run w).1 ≠ .error .cancelled := by
  obtain ⟨hs, hw, he⟩ := h
  have hu := unwound_of_sameEnd he (Writer.depth w)
  refine ⟨?_, congrArg (List.map Prod.snd) ?_, ?_⟩
  · rw [run_renderFrom, run_renderFrom, hw, hu]
  · rw [steps_renderFrom, steps_renderFrom, hs, hw, hu]
  · rw [run_renderFrom]
    exact unwound_not_cancelled he _ _

variable [Gauged σ]

theorem renderFrom_stopped (hw : Works w) (h : Rendering.Stopped w
    (Render.document setting limit d inclusion ⟨t, ∅⟩) (Render.document setting limit d inclusion ⟨u, ∅⟩)) :
    Truncated (renderFrom setting limit d inclusion t) (renderFrom setting limit d inclusion u) w := by
  obtain ⟨hr, hs⟩ := h
  let n : Writing (Except RenderError (Unit × Progress)) := Render.document setting limit d inclusion ⟨u, ∅⟩
  -- from where the second was stopped it only closes, as far down as there is something to close
  have hc := closeTo_min (works_run n hw) (Writer.depth w)
  refine ⟨?_, n.made w, ?_, ?_, ?_⟩
  · rw [run_renderFrom, hr, run_unwound_error]
  · rw [Writing.made, Writing.made, steps_renderFrom]
    exact (hs.trans (List.prefix_append _ _)).map Prod.snd
  · rw [Writing.made, steps_renderFrom, hr, steps_unwound_error, List.map_append, ← Writing.run_eq_after]
    exact congrArg (_ ++ ·) hc.made
  · rw [run_renderFrom, hr, run_unwound_error, ← Writing.run_eq_after]
    exact hc.depth

/-- While nobody looks at the token, it has fired or not at each node that is reached. A rendering with the same
token is cancelled just if somebody looks where it has. -/
theorem renderFrom_traced (setting : Setting) (limit : Nat) (d : Document) (inclusion : Bool)
    (ht : t.watch = .never) (hw : Works w) :
    let e := renderFrom setting limit d inclusion t
    ∃ fired, (setting.extensions.Idle σ → t.Quiet → true ∉ fired) ∧ (e.run w).1 ≠ .error .cancelled ∧
      ∀ u, t.Beside u → let r := renderFrom setting limit d inclusion u
        (u.watch.finds fired = false → r.run w = e.run w ∧ r.made w = e.made w) ∧
          (u.watch.finds fired = true → Truncated e r w) := by
  have hf : Rendering.Follows setting.extensions σ Unit (Render.document setting limit d inclusion) :=
    Rendering.Follows.closed.document limit d inclusion
  obtain ⟨fired, hf⟩ := hf ⟨t, ∅⟩ w ht
  have hself := hf.inStep (q := ⟨t, ∅⟩) ⟨.refl ht, rfl⟩ (ht ▸ Watch.finds_never fired)
  refine ⟨fired, fun hi hq => (hf.quiet hi hq).1, (renderFrom_inStep hself).2.2,
    fun u h => ⟨fun hv => ?_, fun hv => ?_⟩⟩
  · obtain ⟨hr, hm, -⟩ := renderFrom_inStep (hf.inStep (q := ⟨u, ∅⟩) ⟨h, rfl⟩ hv)
    exact ⟨hr, hm⟩
  · exact renderFrom_stopped hw (hf.stopped (q := ⟨u, ∅⟩) ⟨h, rfl⟩ hv)

/-! ### Cancelled renderings -/

/-- Let a rendering be compared with the same rendering whose token nobody looks at. Either they are the same,
or the first is cancelled: it makes the first calls of the other and then closes what is open, down to the
depth at the beginning, unless handlers have closed what they did not open. It is cancelled just if the other
reaches a node after the token has fired, where also somebody who looks at one node only is like the other up
to that node. What is reached after the token has fired writes nothing, and neither do the runs that wait for
it. -/
theorem renderUntil_truncates (setting : Setting) (limit : Nat) (d : Document) (inclusion : Bool)
    (fuse? : Option Nat) (hw : Works w) :
    let x := setting.extensions
    let e := renderFrom setting limit d inclusion (.watching .never none)
    let r := renderUntil setting limit d inclusion fuse?
    (e.run w).1 ≠ .error .cancelled ∧
      ((r.run w = e.run w ∧ r.made w = e.made w) ∨ Truncated e r w) ∧
      (Truncated e r w ↔ Overruns setting limit d inclusion fuse? w) ∧
      (∀ n, let o := renderFrom setting limit d inclusion (.watching (.once n) fuse?)
        (o.run w = e.run w ∧ o.made w = e.made w) ∨ Truncated e o w) ∧
      (x.Idle σ → fuse? = none → r.run w = e.run w ∧ r.made w = e.made w) ∧
      (x.Tidy σ → Writer.depth (r.run w).2 = Writer.depth w) ∧
      (∀ (s : Scope) (n : Node) (st : Style) (p : Progress), p.traversal.stops = true →
        Render.node s n st p = .done (.error .cancelled)) ∧
      (∀ (s : Html.Scope) (n : Node) (t : Traversal), t.stops = true →
        Html.node s n t = .error .cancelled) ∧
      ∀ (s : Scope) (st : Style) (extra : List Attribute) (l : List Node) (p : Progress),
        Html.nodes s.html l p.traversal = .error .cancelled →
          Render.html s st extra l p = .done (.error .cancelled) := by
  intro x e r
  obtain ⟨fired, hq, -, hv⟩ :=
    renderFrom_traced setting limit d inclusion (t := .watching .never fuse?) rfl hw
  -- while nobody looks at the token, it makes no difference when it is fired
  obtain ⟨hrun, hmade⟩ := (hv (.watching .never none) ⟨rfl, rfl, fun h => (h rfl).elim⟩).1
    (Watch.finds_never fired)
  obtain ⟨-, -, he, -⟩ := renderFrom_traced setting limit d inclusion (t := .watching .never none) rfl hw
  have same {watch : Watch} (hf : watch.finds fired = false) :
      let o := renderFrom setting limit d inclusion (.watching watch fuse?)
      o.run w = e.run w ∧ o.made w = e.made w := by
    rw [hrun, hmade]
    exact (hv (.watching watch fuse?) ⟨rfl, rfl, fun _ => rfl⟩).1 hf
  have truncated {watch : Watch} (hf : watch.finds fired = true) :
      Truncated e (renderFrom setting limit d inclusion (.watching watch fuse?)) w := by
    have ht := (hv (.watching watch fuse?) ⟨rfl, rfl, fun _ => rfl⟩).2 hf
    exact ⟨ht.cancelled, hmade ▸ ht.calls⟩
  have either (watch : Watch) : let o := renderFrom setting limit d inclusion (.watching watch fuse?)
      (o.run w = e.run w ∧ o.made w = e.made w) ∨ Truncated e o w := by
    cases hf : watch.finds fired with
    | false => exact .inl (same hf)
    | true => exact .inr (truncated hf)
  have found {watch : Watch}
      (hc : ((renderFrom setting limit d inclusion (.watching watch fuse?)).run w).1 = .error .cancelled) :
      watch.finds fired = true := by
    by_contra hf
    exact he ((congrArg Prod.fst (same (Bool.eq_false_iff.2 hf)).1).symm.trans hc)
  refine ⟨he, either .always, ⟨fun ht => ?_, fun ⟨n, hn⟩ => ?_⟩, fun n => either (.once n),
    fun hx hn => ?_, fun hx => (balanced_renderUntil hx limit d inclusion fuse? hw).depth,
    fun s n st p => Render.node_refused s n st, fun s n t => Html.node_refused s n,
    fun s st extra l p => Render.html_cancelled s st extra l⟩
  · obtain ⟨n, hn⟩ := Watch.exists_once_finds_iff.2 (found ht.cancelled)
    exact ⟨n, (truncated hn).cancelled⟩
  · exact truncated (Watch.exists_once_finds_iff.1 ⟨n, found hn⟩)
  · subst hn
    exact same (Bool.eq_false_iff.2 fun hf => hq hx rfl (Watch.finds_always_iff.1 hf))

end

/-! ### Tokens fired by extensions -/

/-- A tree with an open element of the caller. -/
def openPage : TreeBuilder := (Writer.perform (.element "Page") TreeBuilder.empty).2

/-- Code blocks go to a handler that closes an element and fires the token. -/
def closingSetting : Setting :=
  ⟨.ofKind .maui, Extensions.none.withCode "chart" fun _ _ =>
    (Writing.call .close).bind fun _ => .done ⟨.ok .rendered, true⟩⟩

def chartAndText : Document :=
  .ofNodes [.codeBlock (.ofRows (some "chart") ["1"]), .paragraph [.text "a"]]

/-- The handler closes the element of the caller, and the token is noticed at the paragraph. What is closed is
not opened again. -/
theorem renderUntil_loses_element_of_caller :
    let r := renderUntil closingSetting 4 chartAndText true none
    (r.run openPage).1 = .error .cancelled ∧ r.made openPage = [.close] ∧
      Writer.depth openPage = 1 ∧ Writer.depth (r.run openPage).2 = 0 :=
  ⟨by decide +kernel, by decide +kernel, by decide +kernel, by decide +kernel⟩

/-- Scripts are texts and fire the token. -/
def firingSetting : Setting :=
  ⟨.ofKind .maui, Extensions.none.withEvaluator fun _ => ⟨.ok (.text "x"), true⟩⟩

def scriptAndText : Document := .ofNodes [.paragraph [.inlineScript "f" false, .text "a"]]

theorem tidy_firingSetting (σ : Type) [Writer σ] [Gauged σ] : firingSetting.extensions.Tidy σ := by
  intro handler ho
  cases ho with
  | code b hk => cases hk
  | media item hk => cases hk

theorem idle_none (σ : Type) [Writer σ] : Extensions.none.Idle σ := by
  refine ⟨nofun, fun context w ho => ?_⟩
  cases ho with
  | code b hk => cases hk
  | media item hk => cases hk

/-- The script fires the token before the text after it; without scripts it is not fired. -/
theorem renderUntil_truncates_script :
    let e := renderFrom firingSetting 4 scriptAndText true (.watching .never none)
    let r := renderUntil firingSetting 4 scriptAndText true none
    ((e.run openPage).1 = .ok () ∧ Truncated e r openPage ∧
        Overruns firingSetting 4 scriptAndText true none openPage ∧
        Writer.depth (r.run openPage).2 = Writer.depth openPage) ∧
      (renderUntil ⟨.ofKind .maui, .none⟩ 4 scriptAndText true none).run openPage =
        (renderFrom ⟨.ofKind .maui, .none⟩ 4 scriptAndText true (.watching .never none)).run openPage := by
  intro e r
  have hok : (e.run openPage).1 = .ok () := rfl
  have ho : Overruns firingSetting 4 scriptAndText true none openPage := ⟨2, by decide +kernel⟩
  have h := renderUntil_truncates firingSetting 4 scriptAndText true none (w := openPage) trivial
  have hn := renderUntil_truncates ⟨.ofKind .maui, .none⟩ 4 scriptAndText true none (w := openPage) trivial
  exact ⟨⟨hok, h.2.2.1.2 ho, ho, h.2.2.2.2.2.1 (tidy_firingSetting _)⟩,
    (hn.2.2.2.2.1 (idle_none _) rfl).1⟩

end XamlDoc
