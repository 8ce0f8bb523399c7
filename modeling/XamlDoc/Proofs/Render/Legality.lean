import XamlDoc.Proofs.Render.Characters
import XamlDoc.Proofs.Render.Completion

/-!
# Characters of finished texts

If the strings of a document and of the profile consist of characters that XML allows, so does the text that is
written for it, in all dialects and layouts, apart from the characters of numeric entities. These are written as they
are, also those that XML does not allow.
-/

namespace XamlDoc

open Alphabet Markup
open Markup.Content (allCalls allEvents allNamed)
open Markup.Xml (Event Layout TextWriter isAllowed)

/-- All characters of the strings are allowed in XML. -/
def Legal (strings : List String) : Prop := ∀ s ∈ strings, xml.Spells s

/-- No default profile brings characters that are not allowed. -/
theorem legal_defaultProfile (kind : DialectKind) : Legal kind.defaultProfile.strings := by
  have themed {resource : String} (h : xml.Spells resource) : xml.Spells (Profile.themed resource) := by
    refine spells_append.2 ⟨spells_append.2 ⟨spells_append.2 ⟨spells_append.2 ⟨?_, h⟩, ?_⟩, h⟩, ?_⟩ <;>
      exact spells_literal rfl
  have navy : ∀ s ∈ List.replicate 10 "Navy", xml.Spells s := fun s hs =>
    List.eq_of_mem_replicate hs ▸ spells_literal rfl
  have nil : ∀ s ∈ ([] : List String), xml.Spells s := List.forall_mem_nil _
  cases kind with
  | maui =>
    simp only [Legal, Profile.strings, DialectKind.defaultProfile, Profile.plain, Profile.ofTheme,
      List.forall_mem_append, List.forall_mem_cons]
    refine ⟨⟨navy, nil⟩, ?_, themed ?_, themed ?_, themed ?_, ?_, themed ?_, ?_, themed ?_, ?_, nil⟩ <;>
      exact spells_literal rfl
  | xamarinForms =>
    simp only [Legal, Profile.strings, DialectKind.defaultProfile, Profile.plain,
      List.forall_mem_append, List.forall_mem_cons]
    refine ⟨⟨navy, nil⟩, ?_, ?_, ?_, ?_, ?_, ?_, ?_, ?_, ?_, nil⟩ <;> exact spells_literal rfl

namespace Document

/-- The character is that of a numeric entity of the document. -/
def HasEntity (d : Document) (c : Char) : Prop := ∃ code ∈ d.codes, Html.charOfCode? code = some c

/-- The characters that XML allows, and those of the numeric entities of the document. -/
def alphabet (d : Document) : Alphabet := ⟨fun c => isAllowed c = true ∨ d.HasEntity c, .inl⟩

theorem spells_alphabet (d : Document) {s : String} (h : xml.Spells s) : d.alphabet.Spells s :=
  fun c hc => .inl (h c hc)

theorem allowed_of_hasEntity {d : Document} (h : d.codes = []) (c : Char) (hc : d.HasEntity c) : isAllowed c = true := by
  obtain ⟨code, hm, -⟩ := hc
  rw [h] at hm
  cases hm

end Document

namespace Render

section

variable {A : Alphabet} (kind : DialectKind) {p : Profile} {d : Document} (hp : ∀ s ∈ p.strings, A.Spells s)
  (hd : ∀ s ∈ d.strings, A.Spells s) (hc : ∀ c, d.HasEntity c → A.Has c)
include hp hd hc

/-- The events that are written are the same in all layouts, and they are spelled in the alphabet. -/
theorem comes_spelled (limit : Nat) (inclusion : Bool) :
    ∃ k, Comes (render ⟨⟨kind, p⟩, .standard⟩ limit d inclusion false) (.ok ()) (allCalls k) ∧
      (∃ runs : List Run, allNamed "Span" k = runs.map (Run.element p)) ∧ ∀ e ∈ allEvents k, A.SpellsEvent e := by
  let setting : Setting := ⟨⟨kind, p⟩, .standard⟩
  have hx : setting.extensions.BuiltIn := builtIn_standard
  have hprofile : A.SpellsProfile setting.dialect.profile := hp
  obtain ⟨k, hk, hs⟩ := completes hx rfl limit d inclusion
  refine ⟨k, hk, hs, spells_allEvents k fun c hm => ?_⟩
  have hl := spellsDocument_of_strings hd fun code hm c h => hc c ⟨code, hm, h⟩
  have hspelled := spells_renderUntil rfl hprofile limit hl inclusion none TreeBuilder.empty
  obtain ⟨-, hmade⟩ := hk.run (w := TreeBuilder.empty) trivial
  exact hspelled c (hmade ▸ hm)

end

/-- Texts of documents that have allowed characters only are finished, and all their characters are allowed but those
of numeric entities. -/
theorem finished_characters (kind : DialectKind) {p : Profile} (hp : Legal p.strings) (limit : Nat) {d : Document}
    (hd : Legal d.strings) (inclusion : Bool) (l : Layout) :
    ∃ w w', (render ⟨⟨kind, p⟩, .standard⟩ limit d inclusion false).run (TextWriter.new .unlimited l) = (.ok (), w) ∧
      w.finish = (.ok (), w') ∧
      ∀ c ∈ w'.sink.text.toList, isAllowed c = true ∨ d.HasEntity c := by
  obtain ⟨k, hk, -, he⟩ := comes_spelled kind (fun s h => d.spells_alphabet (hp s h))
    (fun s h => d.spells_alphabet (hd s h)) (fun c => .inr) limit inclusion
  obtain ⟨w, w', hr, hf, ht⟩ := hk.finished.2 l
  refine ⟨w, w', hr, hf, ?_⟩
  rw [ht]
  exact spells_layout (fun e hm => (he e hm).markup) l

def letters : Document := .ofNodes [.header 1 [.htmlEntityUnicode 0x41], .paragraph [.text "\t", .lineBreak]]

theorem finished_characters_letters :
    Legal (Dialect.ofKind .maui).profile.strings ∧ Legal letters.strings ∧
      ∃ w w', (render ⟨.ofKind .maui, .standard⟩ 0 letters false false).run
          (TextWriter.new .unlimited (.indented 2)) = (.ok (), w) ∧ w.finish = (.ok (), w') ∧
        ∀ c ∈ w'.sink.text.toList, isAllowed c = true := by
  have hp : Legal (Dialect.ofKind .maui).profile.strings := legal_defaultProfile .maui
  have hd : Legal letters.strings := by
    have h : ∀ s ∈ letters.strings, s.toList.all isAllowed = true := by decide
    exact fun s hs => spells_of_all (h s hs)
  obtain ⟨w, w', hr, hf, hc⟩ := finished_characters .maui hp 0 hd false (.indented 2)
  refine ⟨hp, hd, w, w', hr, hf, fun c hm => (hc c hm).elim id fun h => ?_⟩
  -- the one numeric entity is that of a letter
  obtain ⟨code, hcode, h⟩ := h
  have hl : letters.codes = [0x41] := rfl
  rw [hl, List.mem_singleton] at hcode
  subst hcode
  cases h
  rfl

def control : Document := .ofNodes [.paragraph [.htmlEntityUnicode 1]]

/-- The paragraph of a document that is nothing but a control character. -/
def controlContents : List Content :=
  [.element "ContentView" [("Padding", "0,5,0,5")]
    [.element "Label" [("LineBreakMode", "WordWrap"), ("HorizontalTextAlignment", "Start")]
      [.element "Label.FormattedText" []
        [.element "FormattedString" [] [.element "Span" [("Text", "\x01")] []]]]]]

/-- A control character comes into the text as it is. -/
theorem finished_characters_control :
    Legal (Dialect.ofKind .xamarinForms).profile.strings ∧ Legal control.strings ∧
      ∃ w w', (render ⟨.ofKind .xamarinForms, .standard⟩ 0 control true false).run
          (TextWriter.new .unlimited .compact) = (.ok (), w) ∧ w.finish = (.ok (), w') ∧
        '\x01' ∈ w'.sink.text.toList ∧ isAllowed '\x01' = false := by
  have hd : Legal control.strings := by
    have h : control.strings = [] := rfl
    exact h ▸ List.forall_mem_nil _
  have hr : ((render ⟨.ofKind .xamarinForms, .standard⟩ 0 control true false).run
      (TextWriter.new .unlimited .compact)).1 = .ok () := rfl
  have hm : (render ⟨.ofKind .xamarinForms, .standard⟩ 0 control true false).made
      (TextWriter.new .unlimited .compact) = allCalls controlContents := rfl
  obtain ⟨w', hf, ht⟩ := TextWriter.finish_after_allCalls .compact controlContents
  have hs : Event.empty ⟨"Span", [("Text", "\x01")]⟩ ∈ allEvents controlContents := by
    simp [controlContents, allEvents, Content.events]
  have hc : '\x01' ∈ (Event.empty ⟨"Span", [("Text", "\x01")]⟩).markup.toList := by decide
  have hl := Layout.mem_text hs .compact hc
  rw [← ht] at hl
  exact ⟨legal_defaultProfile .xamarinForms, hd, _, w', Writing.run_of_made hr hm, hf, hl, by decide⟩

end Render

end XamlDoc
