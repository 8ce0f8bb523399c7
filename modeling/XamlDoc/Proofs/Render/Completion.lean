import XamlDoc.Proofs.Markup.Events
import XamlDoc.Proofs.Render.Cancellation
import XamlDoc.Proofs.Render.Isolation
import XamlDoc.Proofs.Render.Placement
import XamlDoc.Proofs.Render.Termination

/-!
# Renderings that cannot fail

Without scripts, and with no other handler than the one for images, a rendering that is left alone comes to its end
in any place. The contents that it writes are the same for all writers, and a text writer of any layout finishes
their text.
-/

namespace XamlDoc

open Markup
open Markup.Content (allCalls allEvents allNamed)
open Markup.Xml (Layout TextWriter)

/-- Contents that come out of a rendering everywhere, as a tree and as the text of a layout. -/
theorem Comes.finished {m : Writing (Except RenderError Unit)} {k : List Content}
    (h : Comes m (.ok ()) (allCalls k)) :
    m.run TreeBuilder.empty = (.ok (), Writer.after (allCalls k) TreeBuilder.empty) ∧
      ∀ l : Layout, ∃ w w', m.run (TextWriter.new .unlimited l) = (.ok (), w) ∧ w.finish = (.ok (), w') ∧
        w'.sink.text = l.text (allEvents k) := by
  have run {σ : Type} [Writer σ] [Gauged σ] {w : σ} (hw : Gauged.Works w) :
      m.run w = (.ok (), Writer.after (allCalls k) w) := by
    obtain ⟨hr, hm⟩ := h.run hw
    exact Writing.run_of_made hr hm
  refine ⟨run trivial, fun l => ?_⟩
  obtain ⟨w', hf, ht⟩ := TextWriter.finish_after_allCalls l k
  have hw : (TextWriter.new .unlimited l).Works := ⟨rfl, rfl⟩
  exact ⟨_, w', run hw, hf, ht⟩

namespace Render

variable {setting : Setting}

/-- A rendering that nothing can stop comes to its end, and each of its spans is that of a run. -/
theorem completes (hx : setting.extensions.BuiltIn) (he : setting.extensions.evaluator? = none) (limit : Nat)
    (d : Document) (inclusion : Bool) :
    ∃ k, Comes (render setting limit d inclusion false) (.ok ()) (allCalls k) ∧
      ∃ runs : List Run, allNamed "Span" k = runs.map (Run.element setting.dialect.profile) := by
  -- the render can be neither cancelled nor nested too deeply, and nothing else can go wrong
  have ok {σ : Type} [Writer σ] [Gauged σ] {w : σ} (hw : Gauged.Works w) :
      ((render setting limit d inclusion false).run w).1 = .ok () := by
    have hi : setting.extensions.Idle σ := hx.idle fun evaluate h => by rw [he] at h; cases h
    have hd : ((renderUntil setting limit d inclusion none).run w).1 ≠ .error .tooDeep :=
      renderUntil_ne_tooDeep (fun evaluate h => by rw [he] at h; cases h) limit inclusion none w
    obtain ⟨hc, -, -, -, hq, -⟩ := renderUntil_truncates setting limit d inclusion none hw
    have hf := faultless_renderUntil hx limit d inclusion none hw
    rw [← (hq hi rfl).1] at hc
    show ((renderUntil setting limit d inclusion none).run w).1 = .ok ()
    cases hr : ((renderUntil setting limit d inclusion none).run w).1 with
    | ok u => rfl
    | error e =>
      rcases hf.error hr with rfl | rfl
      · exact (hc hr).elim
      · exact (hd hr).elim
  obtain ⟨r, cs, hp⟩ := (Placeless.closed hx).document limit d inclusion ⟨.start none, ∅⟩
  have hm {σ : Type} [Writer σ] [Gauged σ] {w : σ} (hw : Gauged.Works w) :
      (render setting limit d inclusion false).made w = cs ∧ ∃ q, r = .ok ((), q) := by
    obtain ⟨hm, q, hq⟩ := document_of_renderFrom_ok (t := .start none) (ok hw)
    obtain ⟨hr, hc⟩ := hp.comes.run hw
    exact ⟨hm.trans hc, q, hr.symm.trans (congrArg Prod.fst hq)⟩
  obtain ⟨-, q, rfl⟩ := hm (w := TreeBuilder.empty) trivial
  obtain ⟨k, rfl, hk⟩ := hp.whole rfl
  exact ⟨k, ⟨fun hw => ⟨ok hw, (hm hw).1⟩⟩, hk⟩

end Render

end XamlDoc
