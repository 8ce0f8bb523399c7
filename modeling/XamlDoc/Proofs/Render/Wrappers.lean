import XamlDoc.Proofs.Html.Wrappers
import XamlDoc.Proofs.Render.InPlace
import XamlDoc.Proofs.Render.Neighbours

/-!
# Wrappers in documents

A wrapper is rendered as the node in it. Replacing wrappers by the nodes in them, in the document, in its footnotes
and in the detail document, changes neither the result nor anything that is written.
-/

namespace XamlDoc

open Markup (TreeBuilder Writer WriteError Writing)
open Rendering Layout

theorem Traversal.Decided.rests {t : Traversal} (h : t.Decided) (hs : t.stops = false) : t.Rests := by
  obtain ⟨numbering, cancelled, fuse?, watch⟩ := t
  obtain ⟨rfl, rfl | rfl⟩ := h
  · exact ⟨hs, rfl, rfl⟩
  · cases hs

namespace Render

/-- On every writer, two renderings do the same, and do not let anything outside fire the token later. It makes no
difference whether runs wait. -/
def Matched (_ _ : Phase) (α : Type) (m : Bool → Rendering α) : Prop :=
  ∀ p : Progress, p.traversal.Decided → ∀ {σ : Type} [Writer σ] (w : σ),
    Writing.run (m true p) w = Writing.run (m false p) w ∧
      ∀ a q, (Writing.run (m false p) w).1 = .ok (a, q) → q.traversal.Decided

namespace Matched

variable {i j : Phase} {α : Type}

theorem write (c : Writing (Except WriteError α)) {p : Progress} (hp : p.traversal.Decided) {σ : Type} [Writer σ]
    {w : σ} {a : α} {q : Progress} (h : (Writing.run (ofWriting c p) w).1 = .ok (a, q)) : q.traversal.Decided := by
  rw [ofWriting, Writing.run_bind] at h
  cases hc : (c.run w).1 with
  | ok a =>
    rw [hc] at h
    cases h
    exact hp
  | error e =>
    rw [hc] at h
    cases h

theorem step {m : Rendering α} (h : Step α m) : Matched i j α fun _ => m := by
  refine fun p hp _ _ w => ⟨rfl, fun a q hq => ?_⟩
  cases h with
  | append r a | comment t =>
    cases hq
    exact hp
  | flush profile => exact write (p := ⟨p.traversal, ∅⟩) (Writing.calls (p.runs.calls profile)) hp hq
  | write c => exact write c hp hq
  | quiet c =>
    replace hq : (Writing.run (ofQuiet c p) w).1 = .ok (a, q) := hq
    rw [ofQuiet, Writing.run_bind] at hq
    cases hq
    exact hp

theorem ofPass {m : Bool → Html.Pass α} {k : List String} (h : Html.Matched α m k) :
    Matched i j α fun x => ofPass (m x) := by
  intro p hp _ _ w
  obtain ⟨he, hd⟩ := h p.traversal hp
  have hs : Rendering.ofPass (m true) p = Rendering.ofPass (m false) p := by rw [Rendering.ofPass, he, Rendering.ofPass]
  refine ⟨congrArg (Writing.run · w) hs, fun a q hq => ?_⟩
  replace hq : (Writing.run (Rendering.ofPass (m false) p) w).1 = .ok (a, q) := hq
  rw [Rendering.ofPass] at hq
  cases hr : m false p.traversal with
  | ok r =>
    rw [hr] at hq
    cases hq
    exact hd r.1 r.2 hr
  | error halt =>
    rw [hr] at hq
    cases hq

theorem stepwise : Stepwise (Matched i j) where
  step := step
  pass h := ofPass (k := []) (.step h)
  andThen {_ _ m f} hm hf := by
    intro p hp _ _ w
    obtain ⟨he, hd⟩ := hm p hp w
    simp only [bind_apply, Writing.run_bind, he]
    cases hr : (Writing.run (m false p) w).1 with
    | ok r => exact hf r.1 r.2 (hd r.1 r.2 hr) _
    | error e => exact ⟨rfl, fun _ _ hq => by cases hq⟩

theorem abreast (d : Dialect) : Abreast d.profile (fun _ => d) Matched :=
  (stepwise (i := .flowing) (j := .flowing)).abreast d

theorem settings (S : Setting) : InSettings Matched (fun _ => S.dialect) S.extensions.emojiSource?
    S.extensions.evaluator? fun _ => S := (stepwise (i := .flowing) (j := .flowing)).settings S

/-- The first rendering may be another one that does the same. -/
theorem before {m m' : Bool → Rendering α} (hm : Matched i j α m) (hs : m' true = m true)
    (hf : ∀ p : Progress, p.traversal.Decided → m' false p = m false p) : Matched i j α m' := by
  intro p hp _ _ w
  rw [hs, hf p hp]
  exact hm p hp w

theorem congr {m m' : Bool → Rendering α} (hm : Matched i j α m) (h : ∀ x, m' x = m x) : Matched i j α m' :=
  funext h ▸ hm

end Matched

/-! ### Wrappers -/

theorem exists_node_eq_block (s : Scope) {n : Node} (hn : n.isInline = false) (st : Style) :
    ∃ m, node s n st = block s m := by
  cases n with
  | singleChild c =>
    rw [Node.isInline] at hn
    exact ⟨_, by rw [node, spanOrBlock, hn, if_neg Bool.false_ne_true]⟩
  | nestedBlock c => exact ⟨_, by rw [node, hn, if_neg Bool.false_ne_true]⟩
  | standalone c => cases c <;> exact ⟨_, rfl⟩
  | paragraph _ | header _ _ | htmlBlock _ | bulletList _ | numberedList _ | taskList _ | definitionList _ | table _
  | blockQuote _ | insertBlocks _ | deleteBlocks _ | codeBlock _ | horizontalRule | sectionSeparator | aligned _ _
  | commentBlock _ | invisibleBreak => exact ⟨_, rfl⟩
  | _ => cases hn

/-- After the runs before a block are written, the block in the wrapper finds none. -/
theorem node_singleChild (s : Scope) (n : Node) (st : Style) {p : Progress} (hp : p.traversal.Decided) :
    node s (.singleChild n) st p = node s n st p := by
  cases hs : p.traversal.stops with
  | true => rw [node_refused s _ st hs, node_refused s _ st hs]
  | false =>
    have hr : p.traversal.Rests := hp.rests hs
    rw [node, spanOrBlock]
    split
    · rw [span, visit_apply, hs, hr.tick, if_neg Bool.false_ne_true]
    · rename_i hn
      obtain ⟨m, hm⟩ := exists_node_eq_block s (Bool.eq_false_iff.2 hn) st
      rw [hm, block, visit_apply, hs, hr.tick, if_neg Bool.false_ne_true]
      exact flush_block hr

theorem footnoteContent_cons (s : Scope) {n : Node} (hn : n.isParagraph = false) (r : List Node) (st : Style) :
    footnoteContent s (n :: r) st = (do
      node s n st
      footnoteContent s r st) := by
  cases n with
  | paragraph l => cases hn
  | _ => rfl

/-- A standalone node looks at the node in it only if this is an emoji or a script. -/
theorem standalone_cases {n m : Node} (h : n.Unwraps m) (hw : m.isWrapper = n.isWrapper) : n = m ∨
    ∀ (x : Bool) (s : Scope) (st : Style),
      node s (.standalone (side (n, m) x)) st = standalone s st (node s (side (n, m) x) st) := by
  cases h with
  | refl => exact .inl rfl
  | unwrap _ =>
    cases m with
    | singleChild _ => exact .inr fun x _ _ => by cases x <;> rfl
    | _ => cases hw
  | around hf _ => cases hf <;> exact .inr fun x _ _ => by cases x <;> rfl
  | _ => exact .inr fun x _ _ => by cases x <;> rfl

namespace Matched

/-! ### Nodes -/

section

variable {d : Dialect} {s : Bool → Scope} {D : Document}

theorem nodes {c : List (Node × Node)}
    (hc : ∀ a ∈ c, ∀ st, Matched .flowing .flowing Unit fun x => node (s x) (side a x) st) (st : Style) :
    Matched .flowing .flowing Unit fun x => nodes (s x) (c.map (side · x)) st := by
  induction c with
  | nil => exact stepwise.pass (.done ())
  | cons a r ih =>
    exact stepwise.andThen (hc a (List.mem_cons_self ..) st) fun _ => ih fun b hb => hc b (List.mem_cons_of_mem a hb)

variable (hs : Together (fun _ => .unlimited) Matched (fun _ => d) D (fun _ => True) s)
  (hh : Html.Together (fun _ => .unlimited) Html.Matched D (fun _ => True) (fun x => (s x).html) fun _ => [])
include hs hh

theorem htmlLabel (st : Style) (level? : Option Nat) {c : List (Node × Node)} (hc : ∀ a ∈ c, a.1.Unwraps a.2) :
    Matched .settled .settled Unit fun x =>
      html (s x) st ((level?.map d.headerAttributes).getD []) (c.map (side · x)) := by
  have h : Abreast d.profile (fun _ => d) Matched := abreast d
  simp only [Render.html, hs.dialect]
  exact h.andThen (ofPass (Html.Matched.all hh hc)) fun _ => h.htmlBlock _ level? _

/-- Nodes are rendered alike when wrappers in them are replaced. -/
theorem node {n m : Node} (hu : n.Unwraps m) (st : Style) :
    Matched .flowing .flowing Unit fun x => node (s x) (side (n, m) x) st := by
  have h : Abreast d.profile (fun _ => d) Matched := abreast d
  let parts (x : Bool) (a : Node × Node) : Part := (s x).part (side a x)
  let margins (a : Node × Node) : Margins := a.1.margins
  let isInline (a : Node × Node) : Bool := a.1.isInline
  have part {a : Node × Node} (ha : a.1.Unwraps a.2)
      (ih : ∀ st, Matched .flowing .flowing Unit fun x => Render.node (s x) (side a x) st) :
      Part.Abreast Matched (margins a) (isInline a) fun x => parts x a :=
    ⟨ha.margins_side, ha.isInline_side, ih⟩
  induction hu generalizing st with
  | refl n =>
    simp only [side_same]
    exact hs.node h n.throughout_true st
  | @unwrap n m _ ih => exact (ih st).before rfl fun p hp => node_singleChild (s false) n st hp
  | @wrapper n m hu ih =>
    simp only [side_pair Node.singleChild, Render.node, spanOrBlock, hu.isInline_side]
    split
    · exact h.visit (ih st)
    · exact hs.block h (h.enter (ih st))
  | @standalone n m hu hw ih =>
    obtain rfl | hn := standalone_cases hu hw
    · simp only [side_same]
      exact hs.node h (Node.standalone n).throughout_true st
    · simp only [side_pair Node.standalone, hn]
      exact hs.standalone h st (h.enter (ih st))
  | @around f c hf hu ih =>
    have hc := nodes ih
    simp only [side_pairs fun p => f (c.map p)]
    cases hf with
    | strong | emphasize | delete | insert | underline | superscript | subscript | link _ | abbreviation _ =>
      exact h.visit (hc _)
    | linkReference label =>
      simp only [Render.node, hs.references]
      exact h.visit (hc _)
    | multimedia items alone => exact h.visit (hs.media st items (hc st))
    | multimediaReference label alone =>
      simp only [Render.node, hs.references]
      exact h.visit (hs.media st _ (hc st))
    | paragraph =>
      simp only [Render.node, hs.dialect]
      exact hs.block h (h.padded _ _ (h.flushed (h.enter (hc st))))
    | header level =>
      simp only [Render.node, hs.dialect]
      exact hs.block h (htmlLabel hs hh st (some level.toNat) hu)
    | bulletList =>
      simp only [Render.node, hs.dialect, parts_eq, bullets, List.map_map]
      exact hs.block h (h.list st fun a ha => part (hu a ha) (ih a ha))
    | blockQuote | insertBlocks | deleteBlocks =>
      simp only [Render.node, hs.dialect]
      exact hs.block h (h.panel _ _ (h.enter (hc st)))
    | aligned a =>
      simp only [Render.node, hs.dialect]
      exact hs.block h (h.stacked (h.enter (hc _)))
    | nestedBlock =>
      have hi (x : Bool) : (Node.nestedBlock (c.map (side · x))).isInline =
          (Node.nestedBlock (c.map Prod.fst)).isInline := by
        rw [← side_pairs fun p => Node.nestedBlock (c.map p)]
        exact (Node.Unwraps.around .nestedBlock hu).isInline_side x
      simp only [Render.node, hs.dialect, hi]
      split
      · exact h.visit (hc st)
      · exact hs.block h (h.flushed (h.enter (hc st)))
    | htmlBlock => exact hs.block h (htmlLabel hs hh st none hu)
  | @numberedList items hu ih =>
    have hl := h.numberedList st fun i hi => part (hu i hi) (ih i hi)
    simp only [side_pairs fun p => Node.numberedList (items.map (NumberedItem.map p)), Render.node, hs.dialect,
      numberedParts_eq, List.map_map, Function.comp_def, NumberedItem.map_map]
    exact hs.block h hl
  | @taskList items hu ih =>
    have hl := h.taskList st fun i hi => part (hu i hi) (ih i hi)
    simp only [side_pairs fun p => Node.taskList (items.map (TaskItem.map p)), Render.node, hs.dialect,
      taskParts_eq, List.map_map, Function.comp_def, TaskItem.map_map]
    exact hs.block h hl
  | @definitionList groups hu ih =>
    have hl := h.definitionList st fun g hg a ha => part (hu g hg a ha) (ih g hg a ha)
    simp only [side_pairs fun p => Node.definitionList (groups.map (DefinitionGroup.map p)), Render.node, hs.dialect,
      groupParts_eq, List.map_map, Function.comp_def, DefinitionGroup.map_map]
    exact hs.block h hl
  | @table t hu ih =>
    have hl := h.table (t := t) fun a ha =>
      part (hu a (Table.mem_contents_of_placed ha)) (ih a (Table.mem_contents_of_placed ha))
    simp only [side_pairs fun p => Node.table (t.map p), node_table, hs.dialect, Table.map_map]
    exact hs.block h hl

theorem all {c : List (Node × Node)} (hc : ∀ a ∈ c, a.1.Unwraps a.2) (st : Style) :
    Matched .flowing .flowing Unit fun x => Render.nodes (s x) (c.map (side · x)) st :=
  nodes (fun a ha => node hs hh (hc a ha)) st

/-- Footnotes lose the bounds of their paragraphs, but not those of wrappers around paragraphs. -/
theorem footnoteContent {c : List (Node × Node)} (hc : ∀ a ∈ c, a.1.Unwraps a.2 ∧ a.2.isWrapper = a.1.isWrapper)
    (st : Style) : Matched .flowing .flowing Unit fun x => footnoteContent (s x) (c.map (side · x)) st := by
  have h : Abreast d.profile (fun _ => d) Matched := abreast d
  induction c with
  | nil => exact h.done _ ()
  | cons a r ih =>
    obtain ⟨⟨ha, hw⟩, hr⟩ := List.forall_mem_cons.1 hc
    obtain ⟨n, m⟩ := a
    obtain ⟨l, rfl, rfl, hl⟩ | ⟨hn, hm⟩ := ha.paragraph_cases hw
    · simp only [List.map_cons, side_pairs fun p => Node.paragraph (l.map p)]
      exact h.seq (all hs hh hl st) (ih hr)
    · have hp (x : Bool) : (side (n, m) x).isParagraph = false := (side_eq (hm.trans hn.symm) x).trans hn
      simp only [List.map_cons, footnoteContent_cons _ (hp _)]
      exact h.seq (node hs hh ha st) (ih hr)

variable {D' : Document} (hu : D.Unwraps D') (hd : ∀ x, (s x).document = side (D, D') x)
include hu hd

theorem rowContent (key : String) : Matched .flowing .flowing Unit fun x => rowContent (s x) key := by
  have h : Abreast d.profile (fun _ => d) Matched := abreast d
  simp only [Render.rowContent, hd, ← side_pair Document.footnotes]
  obtain hf | ⟨k, c, hf, hc⟩ := hu.footnotes.get?_side key
  · simp only [hf]
    exact h.done _ ()
  · simp only [hf]
    exact all hs hh (fun a ha => (hc a ha).1) _

theorem footnoteSection : Matched .settled .settled Unit fun x => footnoteSection (s x) := by
  have h : Abreast d.profile (fun _ => d) Matched := abreast d
  simp only [footnoteSection_eq]
  refine h.andThen (h.pass _ .numbering) fun numbering => ?_
  simp only [footnoteRows, hd, hs.dialect, ← side_pair Document.footnotes, hu.footnotes.numberNested_side]
  split
  · exact h.done _ ()
  · simp only [setNumbering_eq]
    refine h.seq (h.pass _ (.renumber _)) ?_
    exact h.footnotes fun key _ => h.enter (rowContent hs hh hu hd key)

theorem body : Matched .settled .settled Unit fun x => body (s x) := by
  have h : Abreast d.profile (fun _ => d) Matched := abreast d
  obtain ⟨c, hc, hc', hl⟩ := exists_pairs hu.nodes
  have hnodes (x : Bool) : (side (D, D') x).nodes = c.map (side · x) := by
    cases x
    · exact hc.symm
    · exact hc'.symm
  simp only [Render.body, ownNumbers_eq, hd, hs.dialect, hnodes]
  refine h.andThen (h.pass _ .numbering) fun outer => h.seq (h.pass _ (.renumber ∅)) ?_
  refine h.seq (h.seq (h.flushed (h.enter (all hs hh hl _))) (footnoteSection hs hh hu hd)) ?_
  exact h.pass _ (.renumber outer)

end

/-! ### Documents -/

section

variable {S : Setting} {nested : Document → Rendering Unit} {nestedHtml : Document → Html.Part}
  (hn : ∀ d, Matched .settled .settled Unit fun _ => nested d)
  (hh : ∀ d, Html.Matched _ (fun _ => nestedHtml d) [])
  {D D' : Document} (h : D.Unwraps D') {detail? : Bool → Option (Rendering Unit)}
  (hm : (∀ x, detail? x = none) ∨ ∃ m : Bool → Rendering Unit,
    (∀ x, detail? x = some (m x)) ∧ Matched .settled .settled Unit m)

/-- The scopes of two documents in which the same footnotes are being expanded. -/
abbrev within (S : Setting) (nested : Document → Rendering Unit) (nestedHtml : Document → Html.Part)
    (D D' : Document) (detail? : Bool → Option (Rendering Unit)) (levels : Nat) (expanding : List String)
    (x : Bool) : Scope :=
  expandingScope (bareScope S nested nestedHtml (side (D, D') x) (detail? x)) levels expanding

include hh h in
theorem html_within (levels : Nat) (expanding : List String) : Html.Together (fun _ => .unlimited) Html.Matched D
    (fun _ => True) (fun x => (within S nested nestedHtml D D' detail? levels expanding x).html) fun _ => [] := by
  simp only [within, expandingScope_html]
  exact Html.Matched.expanding _ _ h hh levels expanding

include hn hh h hm

theorem expanding (levels : Nat) (expanding : List String) :
    Together (fun _ => .unlimited) Matched (fun _ => S.dialect) D (fun _ => True)
      (within S nested nestedHtml D D' detail? levels expanding) := by
  have ha : Abreast S.dialect.profile (fun _ => S.dialect) Matched := abreast S.dialect
  let s := within S nested nestedHtml D D' detail?
  have hd (levels : Nat) (expanding : List String) (x : Bool) : (s levels expanding x).document = side (D, D') x :=
    expandingScope_document ..
  have together (levels : Nat) (expanding : List String) (hr : ∀ st key autoExpand,
      Matched .flowing .flowing Unit fun x => footnoteReference (s levels expanding x) st key autoExpand) :
      Together (fun _ => .unlimited) Matched (fun _ => S.dialect) D (fun _ => True) (s levels expanding) := by
    have hs (x : Bool) : (s levels expanding x).nested = nested ∧ (s levels expanding x).detail? = detail? x := by
      cases levels <;> exact ⟨rfl, rfl⟩
    refine (settings S).scope ha (fun _ ht => ha.table ht) (fun _ => expandingScope_setting ..) (fun x => ?_)
      (fun x => ?_) (fun _ _ d _ _ => ?_) ?_ hr fun hl => ?_
    · rw [hd, h.references_side]
    · rw [hd, h.metadata_side]
    · simp only [hs]
      exact hn d
    · simp only [hs]
      exact hm
    · exact ofPass ((html_within hh h levels expanding).all Html.Matched.abreast (c := ⟨fun _ => false, D.references⟩)
        rfl hl)
  have hf (levels : Nat) (expanding : List String) (key : String) (x : Bool) :
      ((s levels expanding x).document.footnotes.get? key).isSome = (D.footnotes.get? key).isSome := by
    rw [hd, ← side_pair Document.footnotes, h.footnotes.isSome_side]
  induction levels generalizing expanding with
  | zero =>
    refine together 0 expanding fun st key => ?_
    exact ha.declaredReference (hf 0 expanding key) (.inl fun _ => rfl) st
  | succ levels ih =>
    refine together (levels + 1) expanding fun st key => ?_
    refine ha.declaredReference (hf _ expanding key) ?_ st
    simp only [s, inPlace_expandingScope, bareScope, ← side_pair Document.footnotes]
    split
    · exact .inl fun _ => rfl
    · obtain hf | ⟨k, c, hf, hc⟩ := h.footnotes.get?_side key
      · exact .inl fun x => by rw [hf, Option.map_none]
      · refine .inr ⟨_, fun x => by rw [hf, Option.map_some], ?_⟩
        exact footnoteContent (ih (key :: expanding)) (html_within hh h levels (key :: expanding)) hc

variable (detail?) in
theorem documentBody : Matched .settled .settled Unit fun x =>
    Render.body (documentScope S nested nestedHtml (side (D, D') x) (detail? x)) := by
  have hs : Together (fun _ => .unlimited) Matched (fun _ => S.dialect) D (fun _ => True)
      (within S nested nestedHtml D D' detail? D.footnotes.size []) := expanding hn hh h hm _ _
  have hscope (x : Bool) : documentScope S nested nestedHtml (side (D, D') x) (detail? x) =
      within S nested nestedHtml D D' detail? D.footnotes.size [] x := by
    rw [within, ← h.footnotes.size_side x, side_pair Document.footnotes]
    rfl
  simp only [hscope]
  exact body hs (html_within hh h _ _) h fun _ => expandingScope_document ..

end

section

variable {S : Setting} {nested : Document → Rendering Unit} {nestedHtml : Document → Html.Part}
  (hn : ∀ d, Matched .settled .settled Unit fun _ => nested d)
  (hh : ∀ d, Html.Matched _ (fun _ => nestedHtml d) [])
include hn hh

theorem included {D D' : Document} (h : D.Unwraps D') :
    Matched .settled .settled Unit fun x => included S nested nestedHtml (side (D, D') x) := by
  induction h with
  | @plain nodes nodes' footnotes footnotes' references metadata hl hf =>
    have hb := documentBody (S := S) hn hh (.plain references metadata hl hf) (fun _ => none)
      (.inl fun _ => rfl)
    refine hb.congr fun x => ?_
    cases x <;> rfl
  | @detailed nodes nodes' footnotes footnotes' references metadata detail detail' hl hf hu ih =>
    let detail? (x : Bool) := some (Render.included S nested nestedHtml (side (detail, detail') x))
    have hb := documentBody (S := S) hn hh (.detailed references metadata hl hf hu) detail?
      (.inr ⟨_, fun _ => rfl, ih⟩)
    refine hb.congr fun x => ?_
    cases x <;> rfl

end

variable (S : Setting) (limit : Nat)

theorem scriptDocument (D : Document) : Matched .settled .settled Unit fun _ => scriptDocument S limit D := by
  induction limit generalizing D with
  | zero => exact ofPass (Html.Matched.throw .tooDeep (k := []))
  | succ limit ih =>
    have hh := Html.Matched.nestedDocument S.extensions.evaluator? S.dialect.profile limit
    have hi := included (S := S) ih hh (.refl D)
    simp only [side_same] at hi
    exact hi

theorem document {D D' : Document} (h : D.Unwraps D') (inclusion : Bool) :
    Matched .settled .settled Unit fun x => document S limit (side (D, D') x) inclusion := by
  have hh := Html.Matched.nestedDocument S.extensions.evaluator? S.dialect.profile limit
  have hi := included (S := S) (scriptDocument S limit) hh h
  simp only [Render.document, h.metadata_side]
  split
  · exact hi
  · exact (abreast S.dialect).element Common.root hi

end Matched

/-- Documents in which wrappers are replaced by the nodes in them have the same result, and put out the same, on every
writer. -/
theorem render_unwraps {D D' : Document} (h : D.Unwraps D') (S : Setting) (limit : Nat) (inclusion cancelled : Bool)
    {σ : Type} [Writer σ] (w : σ) :
    (render S limit D' inclusion cancelled).run w = (render S limit D inclusion cancelled).run w := by
  let t := Traversal.start (if cancelled then some 0 else none)
  have ht : t.Decided := by
    refine ⟨rfl, ?_⟩
    cases cancelled
    · exact .inl rfl
    · exact .inr rfl
  have hd : Writing.run (document S limit D' inclusion ⟨t, ∅⟩) w =
      Writing.run (document S limit D inclusion ⟨t, ∅⟩) w := (Matched.document S limit h inclusion ⟨t, ∅⟩ ht w).1
  rw [render, render, renderUntil, renderUntil, run_renderFrom, run_renderFrom, hd]

/-- A document with something around nodes in different places. -/
def inPlaces (w : Node → Node) : Document where
  nodes := [w (.paragraph [w (.text "a"), .strong [w (w (.text "b"))], w (.footnoteReference "n" false)]),
    w (.nestedBlock [w (.header 2 [w (.footnoteReference "n" true), .inlineCode "c"]), .detailsReference]),
    .numberedList [⟨some 3, w (.text "d")⟩, ⟨none, .blockQuote [.htmlBlock [w (.text "e")]]⟩],
    .definitionList [⟨[w (.text "f")], [w (.paragraph [.text "g"])]⟩],
    .table ⟨2, [], [[some ⟨w (.text "h"), none⟩, none]], [], none, none⟩, .standalone (.strong [w (.text "i")])]
  footnotes := ⟨[⟨"n", [.paragraph [w (.text "j")], .singleChild (w (.text "k"))]⟩]⟩
  references := ∅
  detail := some (.ofNodes [w (.text "l")])
  metadata := .empty

theorem inPlaces_unwraps : (inPlaces .singleChild).Unwraps (inPlaces id) := by
  have leaf (n : Node) : (Node.singleChild n).Unwraps n := .unwrap (.refl n)
  have one (n : Node) : List.Forall₂ Node.Unwraps [.singleChild n] [n] := .cons (leaf n) .nil
  refine .detailed ∅ .empty ?nodes ?footnotes (.plain ∅ .empty (one _) (.refl ∅))
  case nodes =>
    refine .cons (.unwrap (.enclosed .paragraph ?paragraph)) (.cons (.unwrap (.enclosed .nestedBlock ?nested)) (.cons
      ?items (.cons ?groups (.cons ?table (.cons (.standalone (.enclosed .strong (one _)) rfl) .nil)))))
    case paragraph => exact .cons (leaf _) (.cons (.enclosed .strong (.cons (.unwrap (leaf _)) .nil)) (one _))
    case nested =>
      exact .cons (.unwrap (.enclosed (.header 2) (.cons (leaf _) (.cons (.refl _) .nil)))) (.cons (.refl _) .nil)
    case items =>
      have quote := Node.Unwraps.enclosed .blockQuote (.cons (.enclosed .htmlBlock (one (.text "e"))) .nil)
      exact .numberedList (l := [⟨some 3, _, _⟩, ⟨none, _, _⟩])
        (List.forall_mem_cons.2 ⟨leaf (.text "d"), List.forall_mem_singleton.2 quote⟩)
    case groups =>
      exact .definitionList (l := [⟨[(_, _)], [(_, _)]⟩]) (List.forall_mem_singleton.2
        (List.forall_mem_cons.2 ⟨leaf (.text "f"), List.forall_mem_singleton.2 (leaf (.paragraph [.text "g"]))⟩))
    case table =>
      exact .table (t := ⟨2, [], [[some ⟨(_, _), none⟩, none]], [], none, none⟩)
        (List.forall_mem_singleton.2 (leaf (.text "h")))
  case footnotes =>
    exact .cons ⟨rfl, .cons ⟨.enclosed .paragraph (one _), rfl⟩ (.cons ⟨.wrapper (leaf _), rfl⟩ .nil)⟩ .nil

theorem render_unwraps_inPlaces :
    let S : Setting := ⟨.ofKind .maui, .standard⟩
    let r (w : Node → Node) := (render S 1 (inPlaces w) false false).run TreeBuilder.empty
    (inPlaces .singleChild).Unwraps (inPlaces id) ∧ r id = r .singleChild ∧ (r id).1 = .ok () :=
  ⟨inPlaces_unwraps, render_unwraps inPlaces_unwraps _ 1 false false TreeBuilder.empty, by decide +kernel⟩

/-- A standalone emoji in a wrapper is no standalone emoji. -/
example :
    let made (n : Node) :=
      (render ⟨.ofKind .maui, .none⟩ 0 (.ofNodes [.standalone n]) false false).made TreeBuilder.empty
    made (.singleChild (.emoji (.named "x" "☺"))) ≠ made (.emoji (.named "x" "☺")) := by
  decide +kernel

end Render

end XamlDoc
