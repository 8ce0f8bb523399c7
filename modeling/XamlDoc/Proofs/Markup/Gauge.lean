import XamlDoc.Markup.Tree
import XamlDoc.Markup.Xml.Text
import XamlDoc.Proofs.Markup.Run

/-!
# What answers depend on

A writer whose output can be written answers by two things only: how many elements are open, and
whether the innermost of them still accepts attributes. Both kinds of writer are gauged by them, as
long as the text writer is unfinished and its sink takes everything.
-/

namespace XamlDoc.Markup

structure Gauge where
  depth : Nat
  /-- The element opened last has no content yet. -/
  accepts : Bool
  deriving DecidableEq, Repr

namespace Gauge

def perform : Call → Gauge → Except WriteError Unit × Gauge
  | .element _, g => (.ok (), ⟨g.depth + 1, true⟩)
  | .attr name _, g =>
    if g.accepts then (.ok (), g) else (.error (.misplacedAttribute name), g)
  | .text _, g | .raw _, g | .comment _, g => (.ok (), ⟨g.depth, false⟩)
  | .close, ⟨0, accepts⟩ => (.error .noOpenElement, ⟨0, accepts⟩)
  | .close, ⟨n + 1, _⟩ => (.ok (), ⟨n, false⟩)

/-- The gauge after calls none of which is refused. -/
def accept? : List Call → Gauge → Option Gauge
  | [], g => some g
  | c :: r, g =>
    match g.perform c with
    | (.ok _, g) => accept? r g
    | (.error _, _) => none

theorem accept?_append {a b : List Call} {g g' : Gauge} (h : accept? a g = some g') :
    accept? (a ++ b) g = accept? b g' := by
  induction a generalizing g with
  | nil =>
    cases h
    rfl
  | cons c r ih =>
    simp only [List.cons_append, accept?] at h ⊢
    split at h
    · exact ih h
    · cases h

end Gauge

/-- A kind of writer that is gauged while it works. -/
class Gauged (σ : Type) [Writer σ] where
  /-- All output of the writer is still accepted. -/
  Works : σ → Prop
  gauge : σ → Gauge
  depth_gauge (w : σ) : (gauge w).depth = Writer.depth w
  works_perform {w : σ} (c : Call) : Works w → Works (Writer.perform c w).2
  answer_eq {w : σ} (c : Call) : Works w → (Writer.perform c w).1 = ((gauge w).perform c).1
  gauge_perform {w : σ} (c : Call) :
    Works w → gauge (Writer.perform c w).2 = ((gauge w).perform c).2

open Gauged

variable {σ α : Type} [Writer σ] [Gauged σ]

/-! ### Runs on working writers -/

theorem works_run (m : Writing α) {w : σ} (hw : Works w) : Works (m.run w).2 := by
  induction m generalizing w with
  | done a => exact hw
  | perform c next ih => exact ih _ (works_perform c hw)
  | askDepth next ih => exact ih _ hw

theorem calls_of_accept {cs : List Call} {g : Gauge} {w : σ} (hw : Works w)
    (h : (gauge w).accept? cs = some g) :
    ((Writing.calls cs).run w).1 = .ok () ∧ gauge ((Writing.calls cs).run w).2 = g ∧
      (Writing.calls cs).made w = cs ∧ ∀ s ∈ (Writing.calls cs).steps w, ¬ Refused s := by
  induction cs generalizing w with
  | nil =>
    cases h
    exact ⟨rfl, rfl, rfl, by simp [Writing.calls]⟩
  | cons c r ih =>
    have ha : (Writer.perform c w).1 = ((gauge w).perform c).1 := answer_eq c hw
    have hg := gauge_perform c hw
    simp only [Gauge.accept?] at h
    split at h
    · rename_i g' hc
      rw [hc] at ha hg
      obtain ⟨h1, h2, h3, h4⟩ := ih (works_perform c hw) (hg ▸ h)
      simp only [Writing.calls, Writing.run, Writing.made, Writing.steps, ha]
      refine ⟨h1, h2, congrArg (c :: ·) h3, fun s hs => ?_⟩
      rcases List.mem_cons.1 hs with rfl | hs
      · exact fun hr => hr ha
      · exact h4 s hs
    · cases h

/-- Working writers of any kinds with the same gauge get the same calls and answer alike. -/
theorem same_of_gauge {τ : Type} [Writer τ] [Gauged τ] (m : Writing α) {w : σ} {v : τ} (hw : Works w) (hv : Works v)
    (h : gauge w = gauge v) : (m.run w).1 = (m.run v).1 ∧ m.made w = m.made v := by
  induction m generalizing w v with
  | done a => exact ⟨rfl, rfl⟩
  | perform c next ih =>
    have ha : (Writer.perform c w).1 = (Writer.perform c v).1 := by rw [answer_eq c hw, answer_eq c hv, h]
    have hg : gauge (Writer.perform c w).2 = gauge (Writer.perform c v).2 := by
      rw [gauge_perform c hw, gauge_perform c hv, h]
    obtain ⟨hr, hm⟩ := ih (Writer.perform c w).1 (works_perform c hw) (works_perform c hv) hg
    refine ⟨hr.trans ?_, (congrArg (c :: ·) hm).trans ?_⟩
    · rw [ha]
      rfl
    · rw [ha]
      rfl
  | askDepth next ih =>
    rw [Writing.run, Writing.run, Writing.made_askDepth, Writing.made_askDepth, ← depth_gauge w, ← depth_gauge v, h]
    exact ih _ hw hv h

/-! ### Both kinds of writer -/

namespace TreeBuilder

def gauge (b : TreeBuilder) : Gauge where
  depth := b.frames.length
  accepts :=
    match b.frames with
    | [] => false
    | f :: _ => f.content.isEmpty

theorem gauge_push (b : TreeBuilder) (c : Content) : (b.push c).gauge = ⟨b.gauge.depth, false⟩ := by
  rcases b with ⟨_ | ⟨f, r⟩, done⟩ <;> rfl

theorem perform_gauge (c : Call) (b : TreeBuilder) :
    (perform c b).1 = (b.gauge.perform c).1 ∧ (perform c b).2.gauge = (b.gauge.perform c).2 := by
  rcases b with ⟨frames, done⟩
  cases c with
  | element name => exact ⟨rfl, rfl⟩
  | attr name value =>
    rcases frames with _ | ⟨⟨n, a, _ | ⟨c, content⟩⟩, r⟩ <;> exact ⟨rfl, rfl⟩
  | text t => exact ⟨rfl, gauge_push _ _⟩
  | raw t => exact ⟨rfl, gauge_push _ _⟩
  | comment t => exact ⟨rfl, gauge_push _ _⟩
  | close =>
    rcases frames with _ | ⟨f, r⟩
    · exact ⟨rfl, rfl⟩
    · exact ⟨rfl, gauge_push ⟨r, done⟩ f.close⟩

instance : Gauged TreeBuilder where
  Works _ := True
  gauge := gauge
  depth_gauge _ := rfl
  works_perform _ _ := trivial
  answer_eq c _ := (perform_gauge c _).1
  gauge_perform c _ := (perform_gauge c _).2

end TreeBuilder

end XamlDoc.Markup
