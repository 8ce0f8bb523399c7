import XamlDoc.Command.Run
import XamlDoc.Proofs.Markup.Bounded
import XamlDoc.Proofs.Render.Completion
import XamlDoc.Proofs.Render.Memory

/-!
# Texts that the command writes

A rendering without scripts comes to its end where there is room for its tables and for its indentation. Where there is
not, it may break off, and has written the beginning of the text then.
-/

namespace XamlDoc

/-- The number of columns of the table that the node is, if it is one. -/
def Node.columns : Node → Nat
  | table t => t.columns.toNat
  | _ => 0

instance {A : Node → Prop} [DecidablePred A] (d : Document) : Decidable (d.Throughout A) :=
  inferInstanceAs (Decidable (∀ e ∈ d.layers, ∀ n ∈ e.allNodes, A n))

namespace Command

open Markup (Writer Writing)
open Markup.Xml (Layout Sink TextWriter)

/-- The text of a document under a configuration: that of the rendering in its dialect, under its profile and in its
layout, with memory without bounds. -/
def Renders (c : Config) (d : Document) (text : String) : Prop :=
  ∃ profile w w', c.profile = .ok profile ∧
    (render ⟨⟨c.dialect, profile⟩, .standard⟩ 0 d c.bodyOnly false).run (TextWriter.new .unlimited (layout c)) =
      (.ok (), w) ∧
    w.finish = (.ok (), w') ∧ w'.sink.text = text

/-- What is set aside in advance is within reach of signed addresses: 24 bytes for each column of a table of the
document, and a byte for each blank of the indentation in the elements that are open at a call. -/
structure Fits (c : Config) (d : Document) : Prop where
  tables : d.Throughout fun n => 24 * n.columns < Memory.reach
  indentation {profile : Profile} : c.profile = .ok profile →
    ∀ s ∈ (render ⟨⟨c.dialect, profile⟩, .standard⟩ 0 d c.bodyOnly false).steps
      (TextWriter.new .unlimited (layout c)), c.indent * Writer.depth s.1 < Memory.reach

theorem layout_step (c : Config) : (layout c).step?.getD 0 = c.indent := by
  rw [layout]
  split
  · rename_i h
    exact h.symm
  · rfl

theorem layout_indent (c : Config) : (layout c).indent = 0 := by
  rw [layout]
  split <;> rfl

/-! ### The process -/

section

variable {S : Setting} {d : Document} {inclusion : Bool}

/-- With memory without bounds, a rendering that ends well is that of the document. -/
theorem run_process_of_ok {σ : Type} [Writer σ] {w w' : σ} (h : (render S 0 d inclusion false).run w = (.ok (), w')) :
    (process S d inclusion).run w = (.ok (), w') ∧
      ∀ s ∈ (process S d inclusion).steps w, s ∈ (render S 0 d inclusion false).steps w := by
  obtain ⟨-, q, hq⟩ := Render.document_of_renderFrom_ok (t := .start none) (congrArg Prod.fst h)
  rw [show renderFrom S 0 d inclusion (.start none) = render S 0 d inclusion false from rfl, h] at hq
  refine ⟨?_, fun s hs => ?_⟩
  · rw [process, Writing.run_bind, hq]
    rfl
  · rw [process, Writing.steps_bind, hq] at hs
    rw [render, renderUntil, steps_renderFrom]
    exact List.mem_append_left _ (List.append_nil (Writing.steps _ w) ▸ hs)

theorem confined_process (he : S.extensions.evaluator? = none) (M : Memory) :
    Writing.Confined (¬ d.Throughout (Node.Fits M)) (@process M S d inclusion)
      (@process .unlimited S d inclusion) := by
  have hD : d.Throughout fun n => n.Fits M ∨ ¬ d.Throughout (Node.Fits M) := by
    by_cases h : d.Throughout (Node.Fits M)
    · exact fun e he n hn => .inl (h e he n hn)
    · exact fun _ _ _ _ => .inr h
  exact (Render.Confined.document he hD 0 inclusion ⟨.start none, ∅⟩).bind (fun r => .same (ending r)) rfl

/-- The rendering of the process in the memory that there is. It comes to the end of the rendering of the document
unless there is no room for a table or for the indentation of the elements around a call. -/
theorem attempt_process {M : Memory} (he : S.extensions.evaluator? = none) {l : Layout} (hl : l.indent = 0)
    {w : TextWriter} (h : (@render .unlimited S 0 d inclusion false).run (TextWriter.new .unlimited l) = (.ok (), w)) :
    let p := @TextWriter.attempt M _ (@process M S d inclusion) (TextWriter.new .unlimited l)
    p = (some (.ok ()), w) ∨ (p.1 = none ∨ p.1 = some (.error .tooDeep)) ∧ p.2.Precedes w ∧
      ¬ (d.Throughout (Node.Fits M) ∧ ∀ s ∈ (@render .unlimited S 0 d inclusion false).steps
        (TextWriter.new .unlimited l), M.fits (l.step?.getD 0 * Writer.depth s.1)) := by
  intro p
  let start := TextWriter.new .unlimited l
  let r := (@process M S d inclusion).run start
  have hw : start.Works := ⟨rfl, rfl⟩
  obtain ⟨hp, hs⟩ := run_process_of_ok h
  have hc : Writing.Confined _ (@process M S d inclusion) _ := confined_process he M
  have hr : r = (.ok (), w) ∨
      ¬ d.Throughout (Node.Fits M) ∧ r.1 = .error .tooDeep ∧ r.2.Precedes w := by
    obtain hr | ⟨ht, hr, rest, hrest⟩ := hc.run start
    · exact .inl (hr.trans hp)
    · have hb := (TextWriter.uniform_run rest).precedes r.2
      rw [← hrest, hp] at hb
      exact .inr ⟨ht, hr, hb⟩
  obtain ha | ⟨⟨s, hm, ho⟩, hn, rest, hrest⟩ := @TextWriter.attempt_cases _ _ M (@process M S d inclusion) hw
  · have ha : p = (some r.1, r.2) := ha
    rw [ha]
    obtain hr | ⟨ht, hr, hb⟩ := hr
    · exact .inl (by rw [hr])
    · exact .inr ⟨.inr (congrArg some hr), hb, fun hf => ht hf.1⟩
  · -- the indentation does not fit, so the elements that are open there are the cause
    have hk : start.Counts (l.step?.getD 0) := .new hl
    refine .inr ⟨.inl hn, ?_, fun ⟨ht, hf⟩ => ?_⟩
    · have hb := (TextWriter.uniform_run rest).precedes p.2
      rw [← hrest] at hb
      obtain hr | ⟨-, -, hb'⟩ := hr
      · rwa [show (@process M S d inclusion).run start = _ from hr] at hb
      · exact hb.trans hb'
    · rw [hc.eq (not_not.2 ht)] at hm
      exact (hk.steps hw _ hm).not_fits ho (hf s (hs s hm))

end

/-! ### Texts -/

theorem Fits.tables_fit {c : Config} {d : Document} (h : Fits c d) : d.Throughout (Node.Fits .addressable) := by
  rintro e he n hn t rfl
  have hc : 24 * t.columns.toNat < Memory.reach := h.tables e he _ hn
  exact ⟨decide_eq_true (by omega), decide_eq_true hc⟩

/-- On one line, nothing is indented. -/
theorem fits_compact {c : Config} {d : Document} (hc : c.indent = 0)
    (hd : d.Throughout fun n => 24 * n.columns < Memory.reach) : Fits c d :=
  ⟨hd, fun _ _ _ => by rw [hc, Nat.zero_mul]; decide⟩

section

variable [Memory] {c : Config} {profile : Profile} (h : c.profile = .ok profile) {d : Document}
include h

theorem rendering_of_ended {w : TextWriter} (ha : TextWriter.attempt
    (process ⟨⟨c.dialect, profile⟩, .standard⟩ d c.bodyOnly) (TextWriter.new .unlimited (layout c)) =
      (some (.ok ()), w)) : rendering c d = (w.finish.1.mapError .write, w.finish.2.sink.text) := by
  simp only [rendering, h, ha]

theorem rendering_of_brokenOff {r : Option (Except RenderError Unit)} {w : TextWriter}
    (hr : r = none ∨ r = some (.error .tooDeep)) (ha : TextWriter.attempt
      (process ⟨⟨c.dialect, profile⟩, .standard⟩ d c.bodyOnly) (TextWriter.new .unlimited (layout c)) = (r, w)) :
    rendering c d = (.error (.render .tooDeep), w.sink.text) := by
  obtain rfl | rfl := hr <;> simp only [rendering, h, ha]

end

/-- The text of a document, or the beginning of it if there may be no room for the document. -/
theorem rendering_of_profile {c : Config} {profile : Profile} (h : c.profile = .ok profile) (d : Document) :
    ∃ text, Renders c d text ∧ (@rendering .addressable c d = (.ok (), text) ∨
      ¬ Fits c d ∧ ∃ written more, @rendering .addressable c d = (.error (.render .tooDeep), written) ∧
        text = written ++ more) := by
  let S : Setting := ⟨⟨c.dialect, profile⟩, .standard⟩
  have hx : S.extensions.BuiltIn := builtIn_standard
  obtain ⟨k, hk, -⟩ := Render.completes hx rfl 0 d c.bodyOnly
  obtain ⟨w, w', hr, hf, -⟩ := hk.finished.2 (layout c)
  refine ⟨w'.sink.text, ⟨profile, w, w', h, hr, hf, rfl⟩, ?_⟩
  let p := @TextWriter.attempt .addressable _ (@process .addressable S d c.bodyOnly)
    (TextWriter.new .unlimited (layout c))
  obtain ha | ⟨hn, hb, hfits⟩ := attempt_process rfl (layout_indent c) hr
  · refine .inl ?_
    rw [@rendering_of_ended .addressable _ _ h _ _ ha, hf, Except.mapError]
  · refine .inr ⟨fun hc => hfits ⟨hc.tables_fit, fun s hs => ?_⟩, ?_⟩
    · rw [layout_step]
      exact decide_eq_true (hc.indentation h s hs)
    · obtain ⟨written, hw⟩ : ∃ written, p.2.sink.Holds written := by
        obtain ⟨more, hm⟩ := @TextWriter.attempt_kept _ .addressable _ (Sink.kept_holds "")
          (@process .addressable S d c.bodyOnly) (TextWriter.new .unlimited (layout c)) ⟨"", Sink.holds_unlimited⟩
        exact ⟨_, hm⟩
      obtain ⟨more, hm⟩ := (hb.trans (TextWriter.honest_finish.precedes w)) written hw
      rw [hf] at hm
      refine ⟨written, more, ?_, hm.text⟩
      rw [@rendering_of_brokenOff .addressable _ _ h _ _ p.2 hn rfl, hw.text]

end Command

end XamlDoc
