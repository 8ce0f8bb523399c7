import XamlDoc.Proofs.Markup.Indentation
import XamlDoc.Proofs.Render.Legality

/-!
# Indented renderings

A rendering makes the same calls on text writers of all layouts, so the finished texts differ in nothing but the blanks
between pieces of markup.
-/

namespace XamlDoc

open Alphabet Markup
open Markup.Content (allCalls allEvents allMerged allUnspaced)
open Markup.Xml (Event Layout NamedCall Nests TextWriter breaks lineStart nests_allEvents read? read?_finished_text
  read?_unspaced)

/-- The finished text of whole calls is that of the tree that they build, in every layout. -/
theorem finished_of_whole {α : Type} {m : Writing α} (h : Whole (m.made TreeBuilder.empty)) (l : Layout) :
    let tree := (m.run TreeBuilder.empty).2.finish
    m.made TreeBuilder.empty = allCalls tree ∧ ∃ w w' : TextWriter,
      m.run (TextWriter.new .unlimited l) = ((m.run TreeBuilder.empty).1, w) ∧ w.finish = (.ok (), w') ∧
        w = Writer.after (m.made TreeBuilder.empty) (TextWriter.new .unlimited l) ∧
        w'.sink.text = l.text (allEvents tree) := by
  obtain ⟨k, hk, -⟩ := h
  have htree : (m.run TreeBuilder.empty).2.finish = k := by
    rw [Writing.run_eq_after, hk, TreeBuilder.finish_allCalls]
  have hn : (TextWriter.new .unlimited l).Works := ⟨rfl, rfl⟩
  obtain ⟨hr, hm⟩ := same_of_gauge m (w := TextWriter.new .unlimited l) (v := TreeBuilder.empty) hn trivial rfl
  obtain ⟨w', hf, ht⟩ := TextWriter.finish_after_allCalls l k
  rw [htree]
  rw [hk] at hm ⊢
  exact ⟨rfl, _, w', Writing.run_of_made hr hm, hf, rfl, ht⟩

namespace Render

/-- All characters there are. -/
def unrestricted : Alphabet := ⟨fun _ => True, fun _ => trivial⟩

theorem namedCall_of_spells {A : Alphabet} {c : Call} (h : A.SpellsCall c) : NamedCall c := by
  cases h with
  | element h => exact h
  | attr h _ => exact h
  | text _ | raw _ | comment _ | close => trivial

theorem spells_unrestricted (kind : DialectKind) (p : Profile) (limit : Nat) (d : Document) (inclusion : Bool)
    (fuse? : Option Nat) : ∀ c ∈ (renderUntil ⟨⟨kind, p⟩, .standard⟩ limit d inclusion fuse?).made TreeBuilder.empty,
      unrestricted.SpellsCall c := by
  let setting : Setting := ⟨⟨kind, p⟩, .standard⟩
  have hx : setting.extensions = .standard := rfl
  have hp : unrestricted.SpellsProfile p := fun _ _ _ _ => trivial
  have hd := spellsDocument_of_strings (A := unrestricted) (d := d) (fun _ _ _ _ => trivial) fun _ _ _ _ => trivial
  exact spells_renderUntil hx hp limit hd inclusion fuse? TreeBuilder.empty

/-- With the built-in handlers, the indented text of a document is the compact one with line breaks and blanks between
pieces of markup. None stands next to character data, and what starts a line is indented by the elements open around it.
A reader gets the tree that was written from the compact text, and from the indented one the same tree but for texts of
blanks, whichever way the rendering ends. -/
theorem indentation_adds_blanks (kind : DialectKind) (p : Profile) (limit : Nat) (d : Document) (inclusion : Bool)
    (fuse? : Option Nat) (step : Nat) :
    let m := renderUntil ⟨⟨kind, p⟩, .standard⟩ limit d inclusion fuse?
    let tree := (m.run TreeBuilder.empty).2.finish
    ∃ (es : List Event) (r : Except RenderError Unit) (w w' v v' : TextWriter),
      (m.run (TextWriter.new .unlimited .compact) = (r, w) ∧ w.finish = (.ok (), w')) ∧
      (m.run (TextWriter.new .unlimited (.indented step)) = (r, v) ∧ v.finish = (.ok (), v')) ∧
      ((∀ e ∈ es, e.Legible) ∧ Nests [] es) ∧
      w'.sink.text = String.join (es.map Event.markup) ∧
      v'.sink.text = String.join (es.mapIdx fun i e =>
        (if breaks (es.take i) e then lineStart step (es.take i) e else "") ++ e.markup) ∧
      read? w'.sink.text = some (allMerged tree) ∧
      ∃ k, read? v'.sink.text = some k ∧ allUnspaced k = allUnspaced (allMerged tree) := by
  intro m tree
  have hx : (⟨⟨kind, p⟩, .standard⟩ : Setting).extensions.BuiltIn := builtIn_standard
  have hwhole := (faultless_renderUntil hx limit d inclusion fuse? (w := TreeBuilder.empty) trivial).whole
  have hspelled := spells_unrestricted kind p limit d inclusion fuse?
  obtain ⟨hmade, w, w', hr, hf, hw, ht⟩ := finished_of_whole hwhole .compact
  obtain ⟨-, v, v', hr', hf', -, ht'⟩ := finished_of_whole hwhole (.indented step)
  have hlegible : ∀ e ∈ allEvents tree, e.Legible := fun e he =>
    (spells_allEvents tree (fun c hc => hspelled c (hmade ▸ hc)) e he).legible
  have hnests : Nests [] (allEvents tree) := by
    have h := (nests_allEvents tree [] []).2 rfl
    rwa [List.append_nil] at h
  obtain ⟨u, hu, hread⟩ := read?_finished_text _ fun c hc => namedCall_of_spells (hspelled c hc)
  rw [← hw, hf] at hu
  cases hu
  refine ⟨allEvents tree, _, w, w', v, v', ⟨hr, hf⟩, ⟨hr', hf'⟩, ⟨hlegible, hnests⟩, ?_, ?_, ?_, ?_⟩
  · rw [ht, Layout.text_compact rfl]
  · rw [ht', (Layout.tracks_indented step).text]
    rfl
  · rw [hread, ← Writing.run_eq_after]
  · rw [ht']
    exact read?_unspaced hlegible (.indented step)

end Render

end XamlDoc
