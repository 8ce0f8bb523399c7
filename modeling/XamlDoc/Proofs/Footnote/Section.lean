import XamlDoc.Markup.Tree
import XamlDoc.Proofs.Footnote.Chains
import XamlDoc.Proofs.Render.Numbering

/-!
# Footnote sections

The rows of a footnote section are laid out before their contents are rendered. Here it is told when
the two agree: when no number is printed in the rows for a footnote without a row, and when the number
of every row is printed somewhere.
-/

namespace XamlDoc

open Markup Render

/-! ### Sections of documents -/

namespace Document

/-- The references that are shown, if handlers render the items that `takes` says. -/
def sight (d : Document) (takes : MediaItem → Bool) : Sight := ⟨takes, d.references⟩

def printedInRow (d : Document) (takes : MediaItem → Bool) (key : String) : List String :=
  d.footnotes.printedAll (d.sight takes) (d.footnotes.rowLinks (d.sight takes) key)

def printedInBody (d : Document) (takes : MediaItem → Bool) : List String :=
  d.footnotes.printedAll (d.sight takes) ((d.sight takes).shownAll .blocks d.nodes)

def PrintsIn (d : Document) (c : Sight) (rows : List String) (key : String) : Prop :=
  d.footnotes.Prints c (c.shownAll .blocks d.nodes) key ∨
    ∃ row ∈ rows, d.footnotes.Prints c (d.footnotes.rowLinks c row) key

/-- The numbers printed in the rows all have a row, if every footnote that a row comes back to by a
reference that expands has one. -/
theorem printedInRow_subset {d : Document} {takes : MediaItem → Bool} {n : Numbering}
    (hc : ∀ key ∈ (d.footnotes.numberNested n).keys, ∀ other,
      d.footnotes.ComesBack (d.sight takes) key other → other ∈ (d.footnotes.numberNested n).keys) :
    (d.footnotes.numberNested n).keys.flatMap (d.printedInRow takes) ⊆
      (d.footnotes.numberNested n).keys := by
  intro other ho
  obtain ⟨key, hk, ho⟩ := List.mem_flatMap.1 ho
  rcases Footnotes.records_or_comesBack (Footnotes.mem_printedAll_iff.1 ho) with hr | hb
  · exact Footnotes.mem_numberNested_of_records hk hr
  · exact hc key hk other hb

end Document

namespace Render

theorem footnoteSection_apply (s : Scope) (p : Progress) :
    footnoteSection s p =
      let rows := s.document.footnotes.numberNested p.traversal.numbering
      if p.traversal.numbering.isEmpty then .done (.ok ((), p))
      else Layout.footnotes s.dialect (rows.keys.map (rowContent s))
        { p with traversal := { p.traversal with numbering := rows } } := by
  show footnoteRows s p.traversal.numbering p = _
  rw [footnoteRows]
  split <;> rfl

theorem scopeOf_document (setting : Setting) (nested : Document → Rendering Unit)
    (nestedHtml : Document → Html.Part) (d : Document) :
    (scopeOf setting nested nestedHtml d).document = d := by
  rw [scopeOf, documentScope, expandingScope_document]

section

variable {σ : Type} [Writer σ] {R : Comparison} {setting : Setting} {nested : Document → Rendering Unit}
  {nestedHtml : Document → Html.Part} {d : Document} {takes : MediaItem → Bool}
  (he : setting.extensions.evaluator? = none)
include he

section

variable (hf : R.Fits setting.extensions σ takes)
include hf

theorem adds_body (dialect : Dialect) :
    Adds R σ Unit (Layout.flushed dialect (nodes (scopeOf setting nested nestedHtml d) d.nodes .plain))
      (d.printedInBody takes) :=
  (Adds.compositional dialect).flushed (scopeOf_nodes he hf d d.nodes .plain)

theorem adds_row (key : String) :
    Adds R σ Unit (rowContent (scopeOf setting nested nestedHtml d) key) (d.printedInRow takes key) := by
  rw [rowContent, scopeOf_document, Document.printedInRow, Footnotes.rowLinks, Footnotes.shown]
  cases d.footnotes.get? key with
  | none => exact Adds.done ()
  | some f => exact scopeOf_nodes he hf d f.content .plain

/-- After the section, the numbers printed in its rows have been given as well. -/
theorem numbering_footnoteSection {p q : Progress} {w : σ}
    (h : (Writing.run (footnoteSection (scopeOf setting nested nestedHtml d) p) w).1 = .ok ((), q)) :
    let rows := d.footnotes.numberNested p.traversal.numbering
    ∃ l, R.holds l (rows.keys.flatMap (d.printedInRow takes)) ∧
      q.traversal.numbering = rows.addAll l := by
  intro rows
  rw [footnoteSection_apply, scopeOf_document] at h
  dsimp only at h
  split at h
  · rename_i hn
    cases h
    have hr : rows = p.traversal.numbering := Footnotes.numberNested_of_isEmpty hn
    rw [hr, List.isEmpty_iff.1 hn]
    exact ⟨[], R.refl [], rfl⟩
  · have ha : Adds R σ Unit (Layout.footnotes (scopeOf setting nested nestedHtml d).dialect
          (rows.keys.map (rowContent (scopeOf setting nested nestedHtml d))))
        (rows.keys.flatMap (d.printedInRow takes)) :=
      (Adds.compositional _).footnotes fun key _ => adds_row he hf key
    exact ha _ w () q h

end

/-- Rendering the rows gives no number to a footnote without a row, if every footnote that a row comes
back to by a reference that expands has a row. Where handlers decide by the item, it is just then. -/
theorem section_keeps_numbering_iff {p q : Progress} {w w' : σ}
    (h : Writing.run (footnoteSection (scopeOf setting nested nestedHtml d) p) w = (.ok ((), q), w')) :
    let rows := (d.footnotes.numberNested p.traversal.numbering).keys
    let Kept (takes : MediaItem → Bool) : Prop :=
      ∀ key ∈ rows, ∀ other, d.footnotes.ComesBack (d.sight takes) key other → other ∈ rows
    ((Kept fun _ => false) → q.traversal.numbering.keys = rows) ∧
      ∀ takes, setting.extensions.Decides σ takes →
        (q.traversal.numbering.keys = rows ↔ Kept takes) := by
  intro rows Kept
  have hq := congrArg Prod.fst h
  refine ⟨fun hc => ?_, fun takes hd => ?_⟩
  · have hf : Comparison.atMost.Fits setting.extensions σ fun _ => false :=
      .inr ⟨fun _ => rfl, List.nil_subset⟩
    obtain ⟨l, hl, hn⟩ := numbering_footnoteSection he hf hq
    rw [hn, Numbering.keys_addAll_eq_iff]
    exact fun other ho => Document.printedInRow_subset hc (hl ho)
  · have hf : Comparison.exactly.Fits setting.extensions σ takes := .inl hd
    obtain ⟨l, rfl, hn⟩ := numbering_footnoteSection he hf hq
    rw [hn, Numbering.keys_addAll_eq_iff]
    constructor
    · intro hin key hk other hc
      exact hin other (List.mem_flatMap.2 ⟨key, hk, Footnotes.mem_printedAll_iff.2 hc.prints⟩)
    · exact fun hc other ho => Document.printedInRow_subset hc ho

end

/-! ### Rows of footnotes that nobody refers to -/

/-- Without scripts and media handlers, the number of every row is printed in the body or in a row, just
if this is so for all that is recorded by the scans of other rows. Where all references in footnotes are
shown, only footnotes that a scan meets twice can fail. -/
theorem rows_printed_iff {σ : Type} [Writer σ] {setting : Setting} {nested : Document → Rendering Unit}
    {nestedHtml : Document → Html.Part} {d : Document} (he : setting.extensions.evaluator? = none)
    (hx : setting.extensions.media = []) {p q : Progress} {w w' : σ}
    (hp : p.traversal.numbering = ∅)
    (h : let s := scopeOf setting nested nestedHtml d
      Writing.run (Layout.flushed s.dialect (nodes s s.document.nodes .plain) p) w = (.ok ((), q), w')) :
    let c := d.sight fun _ => false
    let rows := (d.footnotes.numberNested q.traversal.numbering).keys
    let Printed (key : String) : Prop :=
      key ∈ q.traversal.numbering.keys ∨ ∃ row ∈ rows, key ∈ d.printedInRow (fun _ => false) row
    (∀ key, Adds .exactly σ Unit (rowContent (scopeOf setting nested nestedHtml d) key)
      (d.printedInRow (fun _ => false) key)) ∧
    ((∀ key ∈ rows, Printed key) ↔
      ∀ row ∈ rows, ∀ key, row ≠ key → d.footnotes.Records row key → d.PrintsIn c rows key) ∧
    (d.footnotes.AllShown c → ((∀ key ∈ rows, Printed key) ↔
      ∀ row ∈ rows, ∀ key, row ≠ key → d.footnotes.Declares key → d.footnotes.MeetsTwice row key →
        d.PrintsIn c rows key)) := by
  intro c rows Printed
  have hd : Comparison.exactly.Fits setting.extensions σ fun _ => false :=
    .inl (decides_of_media_eq_nil hx σ)
  have hbody (key : String) : key ∈ q.traversal.numbering.keys ↔
      d.footnotes.Prints c (c.shownAll .blocks d.nodes) key := by
    dsimp only at h
    rw [scopeOf_document] at h
    obtain ⟨l, rfl, hn⟩ := adds_body he hd _ p w () q (congrArg Prod.fst h)
    rw [hn, hp, Numbering.mem_addAll]
    exact (or_iff_right List.not_mem_nil).trans Footnotes.mem_printedAll_iff
  have hprinted (key : String) : Printed key ↔ d.PrintsIn c rows key := by
    have hrow (row : String) : key ∈ d.printedInRow (fun _ => false) row ↔
        d.footnotes.Prints c (d.footnotes.rowLinks c row) key := Footnotes.mem_printedAll_iff
    simp only [Printed, Document.PrintsIn, hbody, hrow]
  have hmem := Footnotes.mem_numberNested (t := d.footnotes) q.traversal.numbering
  have hrows : (∀ key ∈ rows, Printed key) ↔
      ∀ row ∈ rows, ∀ key, row ≠ key → d.footnotes.Records row key → d.PrintsIn c rows key := by
    simp only [hprinted]
    constructor
    · exact fun hall row hr key hne hk => hall key ((hmem key).2 (.inr ⟨row, hr, hne, hk⟩))
    · intro hall key hk
      rcases (hmem key).1 hk with hb | ⟨row, hr, hne, hk⟩
      · exact .inl ((hbody key).1 hb)
      · exact hall row hr key hne hk
  refine ⟨adds_row he hd, hrows, fun hs => hrows.trans ?_⟩
  constructor
  · exact fun hall row hr key hne hk ht => hall row hr key hne ⟨hk, .inr (.inr ht)⟩
  · intro hall row hr key hne hk
    rcases hs.prints_or_meetsTwice hne hk with hp | ht
    · exact .inr ⟨row, hr, hp⟩
    · exact hall row hr key hne hk.1 ht

/-! ### Documents for which the two disagree -/

/-- A footnote that expands another, whose expansion comes back to it. -/
def cycle : Document :=
  ((Document.ofNodes [.paragraph [.footnoteReference "a" false]]).withFootnote "a"
    [.footnoteReference "b" true]).withFootnote "b" [.footnoteReference "a" true]

/-- A footnote that expands another one twice. -/
def repetition : Document :=
  ((Document.ofNodes [.paragraph [.footnoteReference "a" false]]).withFootnote "a"
    [.footnoteReference "b" true, .footnoteReference "b" true]).withFootnote "b" [.text "note"]

def plainSetting : Setting := ⟨.ofKind .maui, .none⟩

abbrev plainScope (d : Document) : Scope :=
  scopeOf plainSetting (fun _ => pure ()) (fun _ => pure []) d

def bodyRun (d : Document) : Except RenderError (Unit × Progress) × TreeBuilder :=
  Writing.run (Layout.flushed (plainScope d).dialect
    (nodes (plainScope d) (plainScope d).document.nodes .plain) ⟨.start none, ∅⟩) TreeBuilder.empty

def sectionRun (d : Document) : Except RenderError (Unit × Progress) × TreeBuilder :=
  match bodyRun d with
  | (.ok (_, p), w) => Writing.run (footnoteSection (plainScope d) p) w
  | (.error e, w) => (.error e, w)

def numberingOf (r : Except RenderError (Unit × Progress) × TreeBuilder) : Numbering :=
  match r.1 with
  | .ok (_, p) => p.traversal.numbering
  | .error _ => ∅

/-- Where a footnote comes back to itself, its row prints a number for which there is no row. -/
theorem section_gives_number_cycle : ∃ p w q w', bodyRun cycle = (.ok ((), p), w) ∧
    Writing.run (footnoteSection (plainScope cycle) p) w = (.ok ((), q), w') ∧
    (cycle.footnotes.numberNested p.traversal.numbering).keys = ["a"] ∧
    q.traversal.numbering.keys = ["a", "b"] :=
  ⟨_, _, _, _, rfl, rfl, by decide +kernel, by decide +kernel⟩

/-- The section of the document with a repetition gives no numbers, so no row comes back to a footnote
without a row. -/
theorem section_keeps_numbering_repetition : ∃ p w q w', bodyRun repetition = (.ok ((), p), w) ∧
    Writing.run (footnoteSection (plainScope repetition) p) w = (.ok ((), q), w') ∧
    let rows := (repetition.footnotes.numberNested p.traversal.numbering).keys
    q.traversal.numbering.keys = rows ∧ ∀ key ∈ rows, ∀ other,
      repetition.footnotes.ComesBack (repetition.sight fun _ => false) key other → other ∈ rows := by
  obtain ⟨p, w, hb⟩ := exists_run (r := bodyRun repetition) (by decide +kernel)
  obtain ⟨q, w', hs⟩ := exists_run (r := sectionRun repetition) (by decide +kernel)
  have hk : (numberingOf (sectionRun repetition)).keys =
      (repetition.footnotes.numberNested (numberingOf (bodyRun repetition))).keys := by decide +kernel
  rw [hs, hb] at hk
  rw [sectionRun, hb] at hs
  have he : plainSetting.extensions.evaluator? = none := rfl
  have hd : plainSetting.extensions.Decides TreeBuilder fun _ => false := decides_of_media_eq_nil rfl _
  exact ⟨p, w, q, w', hb, hs, hk, ((section_keeps_numbering_iff he hs).2 _ hd).1 hk⟩

/-- Where a footnote is expanded twice, it gets a row, although no number is printed for it. -/
theorem row_unprinted_repetition : ∃ p w, bodyRun repetition = (.ok ((), p), w) ∧
    p.traversal.numbering.keys = ["a"] ∧
    (repetition.footnotes.numberNested p.traversal.numbering).keys = ["a", "b"] ∧
    ∀ row ∈ ["a", "b"], "b" ∉ repetition.printedInRow (fun _ => false) row :=
  ⟨_, _, rfl, by decide +kernel, by decide +kernel, by decide +kernel⟩

/-- The one row of the document with a cycle is referred to in the body, so what its scan meets twice is
printed. -/
theorem rows_printed_cycle : ∃ p w, bodyRun cycle = (.ok ((), p), w) ∧
    let c := cycle.sight fun _ => false
    let rows := (cycle.footnotes.numberNested p.traversal.numbering).keys
    rows = p.traversal.numbering.keys ∧ cycle.footnotes.AllShown c ∧
      ∀ row ∈ rows, ∀ key, row ≠ key → cycle.footnotes.Declares key →
        cycle.footnotes.MeetsTwice row key → cycle.PrintsIn c rows key := by
  obtain ⟨p, w, hb⟩ := exists_run (r := bodyRun cycle) (by decide +kernel)
  have hk : (cycle.footnotes.numberNested (numberingOf (bodyRun cycle))).keys =
      (numberingOf (bodyRun cycle)).keys := by decide +kernel
  rw [hb] at hk
  have he : plainSetting.extensions.evaluator? = none := rfl
  have hx : plainSetting.extensions.media = [] := rfl
  have hs : cycle.footnotes.AllShown (cycle.sight fun _ => false) := by
    refine Footnotes.allShown_of_contents fun f hf v => ?_
    revert f
    cases v <;> decide
  refine ⟨p, w, hb, hk, hs, ((rows_printed_iff he hx rfl hb).2.2 hs).1 fun key hkey => .inl ?_⟩
  exact hk ▸ hkey

end Render

end XamlDoc
