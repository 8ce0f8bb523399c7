import XamlDoc.Proofs.Footnote.Section
import XamlDoc.Proofs.Inline.Spans

/-!
# Spans of a document

Whether a text is written when it is reached or waits until a block is done, in the end every text of a
document is one span, in the order of the texts and in the style of its marks.
-/

namespace XamlDoc

open Markup Gauged
open Markup.Content (allCalls allCalls_append allNamed allNamed_append allNamed_singleton named named_of_ne)

/-! ### Tokens that never fire -/

/-- The token has not fired, and nothing outside is going to fire it. -/
structure Traversal.Rests (t : Traversal) : Prop where
  cancelled : t.cancelled = false
  fuse? : t.fuse? = none
  watch : t.watch = .always

theorem Traversal.Rests.tick {t : Traversal} (h : t.Rests) : t.tick = t := by
  obtain ⟨numbering, cancelled, fuse?, watch⟩ := t
  obtain ⟨rfl, rfl, rfl⟩ := h
  rfl

theorem Traversal.Rests.not_stops {t : Traversal} (h : t.Rests) : t.stops = false := by
  obtain ⟨numbering, cancelled, fuse?, watch⟩ := t
  obtain ⟨rfl, rfl, rfl⟩ := h
  rfl

theorem Traversal.not_rests_of_stops {t : Traversal} (h : t.stops = true) : ¬ t.Rests :=
  fun ht => Bool.false_ne_true (ht.not_stops.symm.trans h)

/-! ### Passes -/

namespace Html

/-- The pass comes to its end, and changes nothing. -/
def Steady (α : Type) (m : Pass α) (_ : List String) : Prop :=
  ∀ t : Traversal, t.Rests → ∃ a, m t = .ok (a, t)

theorem steady_compositional : Compositional Steady where
  done a t _ := ⟨a, rfl⟩
  andThen hm hf t ht := by
    obtain ⟨a, ha⟩ := hm t ht
    obtain ⟨b, hb⟩ := hf a t ht
    exact ⟨b, by rw [bind_apply, ha, ← hb]⟩
  visit hm t ht := by
    rw [visit_apply, ht.not_stops, ht.tick, if_neg Bool.false_ne_true]
    exact hm t ht

theorem steady_nodes {s : Scope} (he : s.evaluator? = none)
    (hf : ∀ key, s.document.footnotes.get? key = none) (l : List Node) {t : Traversal} (ht : t.Rests) :
    ∃ fragments, nodes s l t = .ok (fragments, t) := by
  have h : Traversed Steady s fun _ => [] := by
    refine ⟨fun key autoExpand => ?_, fun expression => ?_⟩
    · rw [footnoteReference, hf]
      exact steady_compositional.done []
    · rw [script, he]
      exact steady_compositional.done _
  exact Traversed.all steady_compositional (fun _ => false) h l t ht

end Html

/-! ### Renderings -/

section

variable {σ α β : Type} [Writer σ]

/-- The run of a rendering from `p` writes contents, comes to its end, and changes nothing but the runs that
wait. The spans written and the runs that wait then are the runs that waited before, and `k`. -/
structure Printed (profile : Profile) (w : σ) (m : Writing (Except RenderError (α × Progress)))
    (p : Progress) (k : List Run) (a : α) (runs : RunBuffer) : Prop where
  ended : (m.run w).1 = .ok (a, ⟨p.traversal, runs⟩)
  made : ∃ content, m.made w = allCalls content ∧
    allNamed "Span" content ++ runs.runs.map (Run.element profile) =
      (p.runs.runs ++ k).map (Run.element profile)

namespace Printed

variable {profile : Profile} {w : σ} {p : Progress} {k l : List Run}

theorem done (a : α) {runs : RunBuffer} (h : runs.runs = p.runs.runs ++ k) :
    Printed profile w (.done (.ok (a, ⟨p.traversal, runs⟩))) p k a runs :=
  ⟨rfl, [], rfl, by rw [← h]; rfl⟩

theorem askDepth {f : Nat → Writing (Except RenderError (α × Progress))} {a : α} {runs : RunBuffer}
    (h : Printed profile w (f (Writer.depth w)) p k a runs) : Printed profile w (.askDepth f) p k a runs :=
  ⟨h.ended, h.made⟩

theorem bind {m : Rendering α} {f : α → Rendering β} {a : α} {b : β} {runs runs' : RunBuffer}
    (hm : Printed profile w (m p) p k a runs)
    (hf : Printed profile (Writing.run (m p) w).2 (f a ⟨p.traversal, runs⟩) ⟨p.traversal, runs⟩ l b runs') :
    Printed profile w ((m >>= f) p) p (k ++ l) b runs' := by
  obtain ⟨c, hc, hs⟩ := hm.made
  obtain ⟨c', hc', hs'⟩ := hf.made
  obtain ⟨hr, hm'⟩ := Rendering.run_bind_ok hm.ended f
  refine ⟨(congrArg Prod.fst hr).trans hf.ended, c ++ c', ?_, ?_⟩
  · rw [hm', hc, hc', allCalls_append]
  · simp only [List.map_append] at hs hs' ⊢
    rw [allNamed_append, List.append_assoc, hs', ← List.append_assoc, hs, List.append_assoc]

variable [Gauged σ]

theorem emit (hw : Works w) {content : List Content} {runs : RunBuffer}
    (h : allNamed "Span" content ++ runs.runs.map (Run.element profile) =
      (p.runs.runs ++ k).map (Run.element profile)) :
    Printed profile w (Rendering.emit (allCalls content) ⟨p.traversal, runs⟩) p k () runs := by
  have ha := accepted_allCalls hw content
  obtain ⟨hr, hm⟩ := Rendering.run_ofWriting ha.answer ⟨p.traversal, runs⟩
  exact ⟨congrArg Prod.fst hr, content, hm.trans ha.made, h⟩

theorem flush (p : Progress) (hw : Works w) :
    Printed profile w (Rendering.flush profile p) p [] () ∅ := by
  have hf : Rendering.flush profile p =
      Rendering.emit (allCalls (p.runs.contents profile)) ⟨p.traversal, ∅⟩ := by
    rw [← p.runs.calls_eq]
    rfl
  rw [hf]
  refine emit hw ?_
  rw [p.runs.spans_contents, List.append_nil]
  exact List.append_nil _

/-- Content between calls that open elements and a writing that closes them. -/
theorem enclosed (hw : Works w) {n : Nat} {start : List Call} (hs : Opening n start) (hsl : Spanless start)
    {finish : Writing (Except WriteError Unit)} (hf : Closes σ (Writer.depth w) n finish)
    {content : Rendering Unit} {runs : RunBuffer}
    (hc : Printed profile ((Writing.calls start).run w).2 (content p) p k () runs) :
    Printed profile w ((do
      Rendering.emit start
      content
      Rendering.ofWriting finish : Rendering Unit) p) p k () runs := by
  obtain ⟨c, hmc, hsc⟩ := hc.made
  obtain ⟨hr, hm⟩ := Rendering.run_enclosed hw hs hf hc.ended hmc
  -- the elements around the contents are no spans and contain none of their own
  obtain ⟨k', hk', hn⟩ := Opening.allNamed_around (List.mem_singleton_self _) hs hsl c
  exact ⟨hr, k', hm.trans hk', hn.symm ▸ hsc⟩

end Printed

/-- On every working writer, a rendering prints `k`. -/
def Prints (profile : Profile) (σ : Type) [Writer σ] [Gauged σ] (α : Type) (m : Rendering α)
    (k : List Run) : Prop :=
  ∀ (p : Progress) (w : σ), Works w → p.traversal.Rests → ∃ a runs, Printed profile w (m p) p k a runs

namespace Prints

variable [Gauged σ] {profile : Profile} {k l : List Run}

theorem bind {m : Rendering α} {f : α → Rendering β} (hm : Prints profile σ α m k)
    (hf : ∀ a, Prints profile σ β (f a) l) : Prints profile σ β (m >>= f) (k ++ l) := by
  intro p w hw ht
  obtain ⟨a, runs, ha⟩ := hm p w hw ht
  obtain ⟨b, runs', hb⟩ := hf a ⟨p.traversal, runs⟩ _ (works_run (m p) hw) ht
  exact ⟨b, runs', ha.bind hb⟩

theorem whole {cs : List Call} (hc : Whole cs) (hs : Spanless cs) :
    Prints profile σ Unit (Rendering.emit cs) [] := by
  intro p w hw _
  obtain ⟨content, rfl, -⟩ := hc
  refine ⟨(), p.runs, Printed.emit hw ?_⟩
  rw [allNamed_of_avoids (List.mem_singleton_self _) hs, List.append_nil, List.nil_append]

theorem flush : Prints profile σ Unit (Rendering.flush profile) [] :=
  fun p _ hw _ => ⟨(), ∅, Printed.flush p hw⟩

theorem enclosed {n : Nat} {start : List Call} (hs : Opening n start) (hsl : Spanless start)
    {content : Rendering Unit} (hc : Prints profile σ Unit content k) (p : Progress) {w : σ} (hw : Works w)
    (ht : p.traversal.Rests) {finish : Writing (Except WriteError Unit)}
    (hf : Closes σ (Writer.depth w) n finish) :
    ∃ a runs, Printed profile w ((do
      Rendering.emit start
      content
      Rendering.ofWriting finish : Rendering Unit) p) p k a runs := by
  obtain ⟨a, runs, hp⟩ := hc p _ (works_run (Writing.calls start) hw) ht
  exact ⟨(), runs, hp.enclosed hw hs hsl hf⟩

theorem bracketed (d : Dialect) : Bracketed d (fun r => [r]) (Prints d.profile σ) where
  done a p w _ _ := ⟨a, p.runs, .done a (List.append_nil _).symm⟩
  andThen := bind
  append r a p w _ _ := ⟨(), p.runs.append r a, .done () (p.runs.runs_append r a)⟩
  comment t p w _ _ := ⟨(), p.runs.appendComment t,
    .done () ((p.runs.runs_appendComment t).trans (List.append_nil _).symm)⟩
  flush := flush
  whole := whole
  element ht hn hc p w hw hr := hc.enclosed (Opening.ofTag ht) (avoids_ofTag hn) p hw hr (closes_one _)
  enclosed hs hsl hc p w hw hr := by
    obtain ⟨a, runs, h⟩ := hc.enclosed hs hsl p hw hr (closes_closeTo (Writer.depth w) _)
    exact ⟨a, runs, h.askDepth⟩

theorem compositional (d : Dialect) : Compositional d (fun r => [r]) (Prints d.profile σ) := (bracketed d).compositional

theorem visit {m : Rendering Unit} (hm : Prints profile σ Unit m k) :
    Prints profile σ Unit (Rendering.visit m) k := by
  intro p w hw ht
  rw [Render.visit_apply, ht.not_stops, ht.tick, if_neg Bool.false_ne_true]
  exact hm p w hw ht

theorem ofPass {m : Html.Pass α} (hm : ∀ t : Traversal, t.Rests → ∃ a, m t = .ok (a, t)) :
    Prints profile σ α (Rendering.ofPass m) [] := by
  intro p w _ ht
  obtain ⟨a, ha⟩ := hm p.traversal ht
  rw [Rendering.ofPass, ha]
  exact ⟨a, p.runs, .done a (List.append_nil _).symm⟩

end Prints

/-! ### Nodes -/

/-- A scope without extensions, footnotes and details. -/
structure Scope.Bare (s : Scope) : Prop where
  extensions : s.setting.extensions = .none
  footnotes (key : String) : s.document.footnotes.get? key = none
  detail : s.detail? = none
  htmlEvaluator : s.html.evaluator? = none
  htmlDocument : s.html.document = s.document

namespace Scope.Bare

open Render

variable {s : Scope} (h : s.Bare)
include h

theorem media_eq (st : Style) (alternative : Rendering Unit) (items : List MediaItem) :
    media s st alternative items = alternative := by
  have hn (type : String) : s.extensions.mediaHandler? type = none := by
    rw [Scope.extensions, h.extensions, Extensions.mediaHandler?]
    cases Extensions.majorType? type.toLower <;> rfl
  induction items with
  | nil => rfl
  | cons item r ih =>
    rw [media]
    cases item.type? with
    | none => exact ih
    | some type =>
      rw [Option.bind_some, hn]
      exact ih

theorem code_eq (st : Style) (b : CodeBlock) : code s st b = plainCode s st b := by
  rw [code, Scope.extensions, h.extensions]
  cases b.language <;> rfl

theorem script_eq (st : Style) (expression : String) (alone : Bool) :
    script s st expression alone = Rendering.text expression { st with code := true } := by
  rw [script, Scope.extensions, h.extensions]
  rfl

theorem standaloneEmoji_eq (st : Style) (e : Emoji) :
    standaloneEmoji s st e = Rendering.text (emojiName e) st := by
  rw [standaloneEmoji, Scope.extensions, h.extensions]
  rfl

theorem footnoteReference_eq (st : Style) (key : String) (autoExpand : Bool) :
    footnoteReference s st key autoExpand = pure () := by
  rw [footnoteReference, h.footnotes]

theorem details_eq (st : Style) : details s st = metaText s st "Details" := by
  rw [details, h.detail]

end Scope.Bare

namespace Prints

open Render Layout

variable [Gauged σ] {s : Scope} (h : s.Bare)

/-- The runs of the leaves at or below a node. -/
abbrev runsOf (s : Scope) (marks : List Mark) (n : Node) : List Run :=
  (s.document.leaves marks n).map Leaf.run

theorem leaf (d : Dialect) (t : String) (marks : List Mark) (a : Alignment) :
    Prints d.profile σ Unit (Rendering.text t (Mark.style marks a))
      ((Document.leaf t marks).map Leaf.run) := by
  have ht := (compositional (σ := σ) d).text t (Mark.style marks a)
  rw [Document.leaf]
  split at ht
  · rename_i he
    rwa [if_pos he]
  · rename_i he
    rwa [if_neg he]

theorem metaText (key : String) (marks : List Mark) (a : Alignment) :
    Prints s.dialect.profile σ Unit (metaText s (Mark.style marks a) key)
      ((s.document.metaLeaf key marks).map Leaf.run) := by
  rw [Render.metaText, Document.metaLeaf]
  cases s.document.metadata.joined? key with
  | none => exact (compositional s.dialect).done ()
  | some value => exact leaf s.dialect value marks a

/-- Whatever marks it gets from its ancestors, a node prints its leaves. -/
abbrev OfNode (s : Scope) (σ : Type) [Writer σ] [Gauged σ] (n : Node) : Prop :=
  ∀ marks a, Prints s.dialect.profile σ Unit (Render.node s n (Mark.style marks a)) (runsOf s marks n)

theorem nodes {l : List Node} (hl : ∀ n ∈ l, OfNode s σ n) (marks : List Mark) (a : Alignment) :
    Prints s.dialect.profile σ Unit (nodes s l (Mark.style marks a))
      ((s.document.leavesAll marks l).map Leaf.run) := by
  induction l with
  | nil => exact (compositional s.dialect).done ()
  | cons n r ih =>
    rw [Document.leavesAll, List.map_append]
    exact (hl n (List.mem_cons_self ..) marks a).bind fun _ => ih fun m hm => hl m (List.mem_cons_of_mem n hm)

theorem block {m : Rendering Unit} {k : List Run} (hm : Prints s.dialect.profile σ Unit m k) :
    Prints s.dialect.profile σ Unit (block s m) k :=
  visit ((compositional s.dialect).before flush hm)

theorem definitionList {groups : List (DefinitionGroup Node)}
    (hc : ∀ m ∈ (Node.definitionList groups).children, OfNode s σ m) :
    OfNode s σ (.definitionList groups) := by
  intro marks a
  rw [Render.node, groupParts_eq, runsOf, Document.leaves, Document.leavesGroups_eq, List.map_flatMap]
  simp only [List.map_append, List.map_flatMap]
  refine block ((compositional s.dialect).definitionList _ fun g hg => ⟨fun m hm => ?_, fun m hm => ?_⟩)
  · exact hc m (Node.mem_children_terms hg hm) (.bold :: marks) a
  · exact hc m (Node.mem_children_descriptions hg hm) marks a

/-- The marks around a table have no say in its cells. -/
theorem table {t : Table Node} (hc : ∀ m ∈ (Node.table t).children, OfNode s σ m) :
    OfNode s σ (.table t) := by
  intro marks a
  rw [node_table, runsOf, Document.leaves_table, List.map_append, List.map_flatMap, List.map_flatMap]
  simp only [List.map_flatMap]
  refine block ((compositional s.dialect).table
    (g := fun header => runsOf s (if header then [.bold] else [])) fun m hm header b => ?_)
  obtain ⟨row, hr, hm⟩ := List.mem_flatMap.1 hm
  obtain ⟨cell, hcell, rfl⟩ := Row.mem_of_mem_placed hm
  have hn := hc _ (Node.mem_cellContents hr hcell) (if header then [.bold] else []) b
  cases header <;> exact hn

include h

theorem html (st : Style) {extra : List Attribute}
    (he : (extra.map Prod.fst).Sublist ["Style", "FontSize", "TextColor"]) (l : List Node) :
    Prints s.dialect.profile σ Unit (Render.html s st extra l) [] := by
  have hf (key : String) : s.html.document.footnotes.get? key = none := by
    rw [h.htmlDocument]
    exact h.footnotes key
  exact (ofPass fun t ht => Html.steady_nodes h.htmlEvaluator hf l ht).bind (l := []) fun _ =>
    (compositional s.dialect).htmlBlock _ he _

theorem standalone {m : Node} (hm : OfNode s σ m) : OfNode s σ (.standalone m) := by
  intro marks a
  have hP := compositional (σ := σ) s.dialect
  have alone {m : Rendering Unit} {k : List Run} (hm : Prints s.dialect.profile σ Unit m k) :
      Prints s.dialect.profile σ Unit (Render.standalone s (Mark.style marks a) m) k :=
    block (hP.padded (hP.flushed hm) _ _)
  cases m with
  | emoji e =>
    rw [Render.node, h.standaloneEmoji_eq]
    exact alone (leaf s.dialect _ marks a)
  | inlineScript expression _ =>
    rw [Render.node, h.script_eq]
    exact alone (leaf s.dialect expression (.code :: marks) a)
  | _ => exact alone (hm marks a)

theorem node (n : Node) : OfNode s σ n := by
  have hP := compositional (σ := σ) s.dialect
  induction n using Node.induction with
  | step n ih =>
    intro marks a
    have all {l : List Node} (hl : ∀ m ∈ l, m ∈ n.children) := nodes fun m hm => ih m (hl m hm)
    cases n with
    | text t | hashTag t | lineBreak | emoji e | htmlEntity name => exact visit (leaf s.dialect _ marks a)
    | inlineCode t => exact visit (leaf s.dialect t (.code :: marks) a)
    | autoLinkMail address =>
      exact visit (leaf s.dialect address (.link ("mailto:" ++ address) :: marks) a)
    | autoLinkUrl url => exact visit (leaf s.dialect url (.link url :: marks) a)
    | strong l => exact visit (all (fun _ hm => hm) (.bold :: marks) a)
    | emphasize l => exact visit (all (fun _ hm => hm) (.italic :: marks) a)
    | delete l => exact visit (all (fun _ hm => hm) (.strikeThrough :: marks) a)
    | insert l | underline l => exact visit (all (fun _ hm => hm) (.underline :: marks) a)
    | superscript l => exact visit (all (fun _ hm => hm) (.superscript :: marks) a)
    | subscript l => exact visit (all (fun _ hm => hm) (.subscript :: marks) a)
    | link url l => exact visit (all (fun _ hm => hm) (.link url :: marks) a)
    | linkReference label l =>
      rw [Render.node, runsOf, Document.leaves, Document.linkMark?]
      cases s.document.references.get? label with
      | none => exact visit (all (fun _ hm => hm) marks a)
      | some target => exact visit (all (fun _ hm => hm) (.link target.url :: marks) a)
    | abbreviation title l => exact visit (all (fun _ hm => hm) marks a)
    | multimedia items l alone | multimediaReference label l alone =>
      rw [Render.node, h.media_eq]
      exact visit (all (fun _ hm => hm) marks a)
    | htmlEntityUnicode code =>
      rw [Render.node, runsOf, Document.leaves]
      cases Html.charOfCode? code with
      | none => exact visit (hP.done ())
      | some c => exact visit (leaf s.dialect _ _ _)
    | footnoteReference key autoExpand =>
      rw [Render.node, h.footnoteReference_eq]
      exact visit (hP.done ())
    | metaReference key => exact visit (metaText key marks a)
    | detailsReference =>
      rw [Render.node, h.details_eq]
      exact visit (metaText "Details" marks a)
    | inlineScript expression alone =>
      rw [Render.node, h.script_eq]
      exact visit (leaf s.dialect expression (.code :: marks) a)
    | inlineHtml markup => exact visit (hP.comment markup)
    | paragraph l => exact block (hP.padded (hP.flushed (all (fun _ hm => hm) marks a)) _ _)
    | header level l => exact block (html h _ (headerAttributes_sublist _ _) l)
    | htmlBlock l => exact block (html h _ (noAttributes_sublist _) l)
    | bulletList l =>
      rw [Render.node, parts_eq, bullets, List.map_map, runsOf, Document.leaves, Document.leavesAll_eq,
        List.map_flatMap]
      exact block (hP.list _ fun m hm => ih m hm marks a)
    | numberedList items =>
      rw [Render.node, numberedParts_eq, runsOf, Document.leaves, Document.leavesNumbered_eq,
        List.map_flatMap]
      exact block (hP.numberedList _ fun i hi => ih _ (Node.mem_children_numberedList hi) marks a)
    | taskList items =>
      rw [Render.node, taskParts_eq, checks, List.map_map, runsOf, Document.leaves,
        Document.leavesTasks_eq, List.map_flatMap]
      exact block (hP.list _ fun i hi => ih _ (Node.mem_children_taskList hi) marks a)
    | definitionList groups => exact definitionList ih marks a
    | table t => exact table ih marks a
    | blockQuote l | insertBlocks l | deleteBlocks l =>
      exact block (hP.panel (all (fun _ hm => hm) marks a) _ _)
    | codeBlock b =>
      rw [Render.node, h.code_eq]
      exact block (hP.codeRows _ _)
    | horizontalRule | sectionSeparator => exact block hP.rule
    | aligned b l => exact block (hP.stacked (all (fun _ hm => hm) marks b.text))
    | singleChild m =>
      have hm := ih m (List.mem_singleton_self m) marks a
      rw [Render.node, spanOrBlock]
      split
      · exact visit hm
      · exact block hm
    | nestedBlock l =>
      rw [Render.node]
      split
      · exact visit (all (fun _ hm => hm) marks a)
      · exact block (hP.flushed (all (fun _ hm => hm) marks a))
    | standalone m => exact standalone h (ih m (List.mem_singleton_self m)) marks a
    | commentBlock _ | invisibleBreak => exact block (hP.done ())

end Prints

/-! ### Documents -/

namespace Printed

variable {profile : Profile} {w : σ} {p : Progress} {k : List Run} {runs : RunBuffer}

theorem ownNumbers {m : Rendering Unit}
    (hm : Printed profile w (m { p with traversal := { p.traversal with numbering := ∅ } })
      { p with traversal := { p.traversal with numbering := ∅ } } k () runs) :
    Printed profile w (Render.ownNumbers m p) p k () runs := by
  have he : Render.ownNumbers m p = (m >>= fun _ => modify fun q : Progress =>
      { q with traversal := { q.traversal with numbering := p.traversal.numbering } } : Rendering Unit)
      { p with traversal := { p.traversal with numbering := ∅ } } := rfl
  obtain ⟨hr, hmade⟩ := Rendering.run_bind_ok hm.ended fun _ => modify fun q : Progress =>
    { q with traversal := { q.traversal with numbering := p.traversal.numbering } }
  obtain ⟨c, hc, hs⟩ := hm.made
  rw [he]
  exact ⟨congrArg Prod.fst hr, c, hmade.trans ((List.append_nil _).trans hc), hs⟩

variable [Gauged σ] {s : Scope}

/-- Without references to footnotes there is no footnote section. -/
theorem body (h : s.Bare) (hw : Works w) (ht : p.traversal.Rests) :
    Printed s.dialect.profile w (Render.body s p) p
      ((s.document.leavesAll [] s.document.nodes).map Leaf.run) () ∅ := by
  let q : Progress := { p with traversal := { p.traversal with numbering := ∅ } }
  have hq : q.traversal.Rests := ⟨ht.cancelled, ht.fuse?, ht.watch⟩
  have hn : Prints s.dialect.profile σ Unit (Render.nodes s s.document.nodes .plain)
      ((s.document.leavesAll [] s.document.nodes).map Leaf.run) :=
    Prints.nodes (fun n _ => Prints.node h n) [] .left
  obtain ⟨a, runs, hr⟩ := hn q w hw hq
  have hc : Printed s.dialect.profile w (Layout.flushed s.dialect (Render.nodes s s.document.nodes .plain) q)
      q ((s.document.leavesAll [] s.document.nodes).map Leaf.run) () ∅ := by
    rw [← List.append_nil (List.map _ _)]
    exact hr.bind (flush _ (works_run _ hw))
  -- nothing has been given a number
  have hs : Render.footnoteSection s ⟨q.traversal, ∅⟩ = .done (.ok ((), ⟨q.traversal, ∅⟩)) := by
    rw [Render.footnoteSection_apply]
    rfl
  refine ownNumbers ?_
  rw [← List.append_nil (List.map _ _)]
  refine hc.bind (f := fun _ => Render.footnoteSection s) ?_
  rw [hs]
  exact .done (p := ⟨q.traversal, ∅⟩) () (List.append_nil _).symm

end Printed

section

variable {d : Document} (hf : d.footnotes = ∅) (hd : d.detail = none)
include hf hd

theorem Render.scopeOf_bare (dialect : Dialect) (nested : Document → Rendering Unit)
    (nestedHtml : Document → Html.Part) : (scopeOf ⟨dialect, .none⟩ nested nestedHtml d).Bare := by
  obtain ⟨nodes, footnotes, references, detail, metadata⟩ := d
  obtain ⟨rfl, rfl⟩ := And.intro hf hd
  -- with no footnotes there is no level of expansion, so the scope is as it was made
  exact ⟨rfl, fun _ => rfl, rfl, rfl, rfl⟩

/-- After a document no text waits. -/
theorem Printed.document [Gauged σ] (dialect : Dialect) (limit : Nat) (inclusion : Bool) {w : σ}
    (hw : Works w) {p : Progress} (ht : p.traversal.Rests) :
    Printed dialect.profile w (Render.document ⟨dialect, .none⟩ limit d inclusion p) p
      (d.allLeaves.map Leaf.run) () ∅ := by
  have hi {w : σ} (hw : Works w) : Printed dialect.profile w (Render.included ⟨dialect, .none⟩
      (Render.scriptDocument ⟨dialect, .none⟩ limit) (Html.nestedDocument none dialect.profile limit) d p) p
      (d.allLeaves.map Leaf.run) () ∅ := by
    have hb := Printed.body (Render.scopeOf_bare hf hd dialect (Render.scriptDocument ⟨dialect, .none⟩ limit)
      (Html.nestedDocument none dialect.profile limit)) hw ht
    rw [Render.included_eq]
    rwa [Render.scopeOf_document, Scope.dialect, Render.scopeOf, Render.documentScope,
      Render.expandingScope_setting] at hb
  rw [Render.document]
  split
  · exact hi hw
  · exact Printed.enclosed hw (Opening.ofTag (Layout.root_distinct _)) (avoids_ofTag (ne_span_of_notMem (root_name _)))
      (closes_one _) (hi (works_run _ hw))

/-- In a rendering to a tree, without extensions, footnotes and a detail document, every text of the
document comes to be one span, in the order of the texts and in the look that its marks give it. -/
theorem render_spans (dialect : Dialect) (limit : Nat) (inclusion : Bool) :
    let r := (render ⟨dialect, .none⟩ limit d inclusion false).run TreeBuilder.empty
    r.1 = .ok () ∧ allNamed "Span" r.2.finish = d.allLeaves.map fun l => l.span dialect.profile := by
  let p : Progress := ⟨.start none, ∅⟩
  let m := Render.document ⟨dialect, .none⟩ limit d inclusion p
  have hp : Printed dialect.profile TreeBuilder.empty m p (d.allLeaves.map Leaf.run) () ∅ :=
    Printed.document hf hd dialect limit inclusion trivial ⟨rfl, rfl, rfl⟩
  obtain ⟨content, hm, hs⟩ := hp.made
  have hrun : (render ⟨dialect, .none⟩ limit d inclusion false).run TreeBuilder.empty =
      (.ok (), (Writing.run m TreeBuilder.empty).2) := by
    refine (run_renderFrom ⟨dialect, .none⟩ limit d inclusion (.start none) _).trans ?_
    rw [hp.ended]
    rfl
  have hl : allNamed "Span" content = (d.allLeaves.map Leaf.run).map (Run.element dialect.profile) := by
    rw [← List.append_nil (allNamed "Span" content)]
    exact hs
  intro r
  rw [show r = _ from hrun, Writing.run_eq_after, hm]
  refine ⟨rfl, ?_⟩
  rw [TreeBuilder.finish_allCalls, hl, List.map_map]
  exact List.map_congr_left fun l _ => l.element_run dialect.profile

end

end

/-- Marks in and around a link, a table with an entry that has no place, and a header. -/
def marked : Document :=
  let table : Table Node := {
    columns := 1
    columnAlignments := []
    headers := [[some ⟨.text "a", none⟩]]
    rows := [[none, some ⟨.text "b", none⟩], [some ⟨.inlineCode "c", none⟩]]
    caption := none
    id := none }
  (Document.ofNodes [
    .header 1 [.text "title"],
    .paragraph [.text "see ", .strong [.linkReference "home" [.text "this", .emphasize [.text " page"]]],
      .text "", .link "away" [.linkReference "nowhere" [.superscript [.text "2"]]]],
    .strong [.table table]]).withReference "home" (.ofUrl "top")

def markedLeaves : List Leaf :=
  [⟨"see ", []⟩, ⟨"this", [.link "top", .bold]⟩, ⟨" page", [.italic, .link "top", .bold]⟩,
    ⟨"2", [.superscript, .link "away"]⟩, ⟨"a", [.bold]⟩, ⟨"c", [.code]⟩]

theorem render_spans_marked : (marked.footnotes = ∅ ∧ marked.detail = none) ∧
    let r := (render ⟨.ofKind .maui, .none⟩ 4 marked false false).run TreeBuilder.empty
    r.1 = .ok () ∧
      allNamed "Span" r.2.finish = markedLeaves.map fun l => l.span (Dialect.ofKind .maui).profile := by
  have hl : marked.allLeaves = markedLeaves := by decide +kernel
  have h := render_spans (d := marked) rfl rfl (.ofKind .maui) 4 false
  rw [hl] at h
  exact ⟨⟨rfl, rfl⟩, h⟩

end XamlDoc
