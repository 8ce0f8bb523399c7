import XamlDoc.Proofs.Markup.Processor
import XamlDoc.Proofs.Render.Legality

/-!
# Texts that reach the consumer

A processor of the finished text sees a span for each run. It passes the text of a run on unchanged if there is no tab
and no end of a line in it; these come out as spaces, as they are written as they are.
-/

namespace XamlDoc

open Markup
open Markup.Content (allCalls allEvents allNamed)
open Markup.Xml (Layout TextWriter isAllowed isBreak normalized values? values?_eq_none values?_text)

/-- The texts of all spans, as a processor passes them on. -/
def spanTexts? : String → Option (List String) := values? "Span" "Text"

theorem spanTexts?_text {p : Profile} {k : List Content} {runs : List Run}
    (hs : allNamed "Span" k = runs.map (Run.element p)) (h : ∀ e ∈ allEvents k, e.Legible) {l : Layout}
    (hc : (l.text (allEvents k)).toList.all isAllowed = true) :
    spanTexts? (l.text (allEvents k)) = some (runs.map fun r => normalized r.text) := by
  rw [spanTexts?, values?_text h hc, hs, List.filterMap_map]
  exact congrArg some (congrFun List.filterMap_eq_map' runs)

theorem map_normalized_eq_iff {runs : List Run} :
    (runs.map fun r => normalized r.text) = runs.map Run.text ↔
      ∀ r ∈ runs, ∀ c ∈ r.text.toList, isBreak c = false := by
  rw [List.map_inj_left]
  exact forall₂_congr fun r _ => Markup.Xml.normalized_eq_self_iff

namespace Render

/-- A processor that can take the finished text sees the runs of the tree, each with its text normalised. -/
theorem spans_processed (kind : DialectKind) {p : Profile} (hp : Legal p.strings) (limit : Nat) {d : Document}
    (hd : Legal d.strings) (inclusion : Bool) (l : Layout) :
    let m := render ⟨⟨kind, p⟩, .standard⟩ limit d inclusion false
    ∃ (runs : List Run) (w w' : TextWriter),
      ((m.run TreeBuilder.empty).1 = .ok () ∧
        allNamed "Span" (m.run TreeBuilder.empty).2.finish = runs.map (Run.element p)) ∧
      (m.run (TextWriter.new .unlimited l) = (.ok (), w) ∧ w.finish = (.ok (), w')) ∧
      ((∀ c ∈ w'.sink.text.toList, isAllowed c = true) →
        spanTexts? w'.sink.text = some (runs.map fun r => normalized r.text)) ∧
      ((∀ c, d.HasEntity c → isAllowed c = true) → ∀ c ∈ w'.sink.text.toList, isAllowed c = true) := by
  intro m
  obtain ⟨k, hk, ⟨runs, hs⟩, he⟩ := comes_spelled kind
    (fun s h => d.spells_alphabet (hp s h)) (fun s h => d.spells_alphabet (hd s h)) (fun c => .inr) limit inclusion
  obtain ⟨htree, hfinished⟩ := hk.finished
  obtain ⟨w, w', hr, hf, ht⟩ := hfinished l
  refine ⟨runs, w, w', ⟨?_, ?_⟩, ⟨hr, hf⟩, fun h => ?_, fun hc => ?_⟩
  · rw [htree]
  · rw [htree, TreeBuilder.finish_allCalls, hs]
  · rw [ht] at h ⊢
    exact spanTexts?_text hs (fun e h => (he e h).legible) (List.all_eq_true.2 h)
  · rw [ht]
    exact fun c hm => (Alphabet.spells_layout (fun e h => (he e h).markup) l c hm).elim id (hc c)

/-- If a document has allowed characters only, a processor sees the runs of its spans with the texts that they wait
with just if all characters of the finished text are allowed and no run has a tab or an end of a line in its text. The
first can only fail for a numeric entity. -/
theorem span_texts_kept_iff (kind : DialectKind) {p : Profile} (hp : Legal p.strings) (limit : Nat) {d : Document}
    (hd : Legal d.strings) (inclusion : Bool) (l : Layout) :
    let m := render ⟨⟨kind, p⟩, .standard⟩ limit d inclusion false
    ∃ (runs : List Run) (w w' : TextWriter),
      ((m.run TreeBuilder.empty).1 = .ok () ∧
        allNamed "Span" (m.run TreeBuilder.empty).2.finish = runs.map (Run.element p)) ∧
      (m.run (TextWriter.new .unlimited l) = (.ok (), w) ∧ w.finish = (.ok (), w')) ∧
      (spanTexts? w'.sink.text = some (runs.map Run.text) ↔
        (∀ c ∈ w'.sink.text.toList, isAllowed c = true) ∧ ∀ r ∈ runs, ∀ c ∈ r.text.toList, isBreak c = false) ∧
      ((∀ c, d.HasEntity c → isAllowed c = true) →
        spanTexts? w'.sink.text = some (runs.map fun r => normalized r.text)) := by
  intro m
  obtain ⟨runs, w, w', hspans, hw, hseen, hallowed⟩ := spans_processed kind hp limit hd inclusion l
  refine ⟨runs, w, w', hspans, hw, ⟨fun h => ?_, fun ⟨ha, hb⟩ => ?_⟩, fun hc => hseen (hallowed hc)⟩
  · have ha : ∀ c ∈ w'.sink.text.toList, isAllowed c = true := by
      refine List.all_eq_true.1 (Bool.of_not_eq_false fun ha => ?_)
      rw [spanTexts?, values?_eq_none ha] at h
      cases h
    rw [hseen ha] at h
    exact ⟨ha, map_normalized_eq_iff.1 (Option.some.inj h)⟩
  · rw [hseen ha, map_normalized_eq_iff.2 hb]

/-- The texts of the spans of a tree are those of their runs. -/
theorem normalized_texts {p : Profile} {k : List Content} {runs : List Run} {texts : List String}
    (h : allNamed "Span" k = runs.map (Run.element p))
    (ht : (allNamed "Span" k).filterMap (·.attr? "Text") = texts) :
    (runs.map fun r => normalized r.text) = texts.map normalized := by
  rw [← ht, h, List.filterMap_map, List.map_filterMap]
  exact (congrFun List.filterMap_eq_map' runs).symm

def quotation : Document := .ofNodes [.paragraph [.strong [.text "a<b"], .text " & \"c\""]]

theorem span_texts_kept_iff_quotation :
    let m := render ⟨.ofKind .maui, .standard⟩ 0 quotation false false
    Legal (Dialect.ofKind .maui).profile.strings ∧ Legal quotation.strings ∧
      ∃ w w' : TextWriter, m.run (TextWriter.new .unlimited (.indented 2)) = (.ok (), w) ∧ w.finish = (.ok (), w') ∧
        spanTexts? w'.sink.text = some ["a<b", " & \"c\""] := by
  intro m
  have hp : Legal (Dialect.ofKind .maui).profile.strings := legal_defaultProfile .maui
  have hd : Legal quotation.strings := by
    have h : ∀ s ∈ quotation.strings, s.toList.all isAllowed = true := by decide
    exact fun s hs => Alphabet.spells_of_all (h s hs)
  obtain ⟨runs, w, w', ⟨-, hs⟩, ⟨hr, hf⟩, -, hall⟩ := span_texts_kept_iff .maui hp 0 hd false (.indented 2)
  have ht : (runs.map fun r => normalized r.text) = ["a<b", " & \"c\""].map normalized :=
    normalized_texts hs rfl
  have hn : ["a<b", " & \"c\""].map normalized = ["a<b", " & \"c\""] := rfl
  have he := hall (Document.allowed_of_hasEntity rfl)
  rw [ht, hn] at he
  exact ⟨hp, hd, w, w', hr, hf, he⟩

def brokenLine : Document := .ofNodes [.paragraph [.lineBreak]]

/-- A line break does not reach the consumer: it waits as the end of a line and comes out as a space. -/
theorem span_texts_lost_brokenLine :
    let m := render ⟨.ofKind .maui, .standard⟩ 0 brokenLine true false
    Legal (Dialect.ofKind .maui).profile.strings ∧ Legal brokenLine.strings ∧
      (allNamed "Span" (m.run TreeBuilder.empty).2.finish).map (·.attr? "Text") = [some "\n"] ∧
      ∃ w w' : TextWriter, m.run (TextWriter.new .unlimited .compact) = (.ok (), w) ∧ w.finish = (.ok (), w') ∧
        spanTexts? w'.sink.text = some [" "] := by
  intro m
  have hp : Legal (Dialect.ofKind .maui).profile.strings := legal_defaultProfile .maui
  have hd : Legal brokenLine.strings := by
    have h : brokenLine.strings = [] := rfl
    exact h ▸ List.forall_mem_nil _
  obtain ⟨runs, w, w', ⟨-, hs⟩, ⟨hr, hf⟩, hseen, hallowed⟩ := spans_processed .maui hp 0 hd true .compact
  have ht : (runs.map fun r => normalized r.text) = ["\n"].map normalized := normalized_texts hs rfl
  have hn : ["\n"].map normalized = [" "] := rfl
  have he := hseen (hallowed (Document.allowed_of_hasEntity rfl))
  rw [ht, hn] at he
  exact ⟨hp, hd, rfl, w, w', hr, hf, he⟩

end Render

end XamlDoc
