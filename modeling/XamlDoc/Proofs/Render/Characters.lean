import XamlDoc.Proofs.Html.Characters
import XamlDoc.Proofs.Render.Numbering
import XamlDoc.Proofs.Render.Spelling

/-!
# Characters of renderings

What is written for a document with the handler for images alone is spelled in every alphabet in which the strings of
the document and of the profile are spelled and that has the characters of its numeric entities.
-/

namespace XamlDoc

open Markup (Attribute Writing)
open Markup.Writing (Makes makes_calls makes_closeTo)
open Rendering

namespace Alphabet

variable {A : Alphabet}

/-! ### Nodes -/

/-- What a node takes from its scope is spelled in the alphabet. -/
structure SpellsScope (A : Alphabet) (s : Scope) : Prop where
  extensions : s.extensions = .standard
  profile : A.SpellsProfile s.dialect.profile
  document : A.SpellsDocument s.document
  inPlace {key : String} {content : Style → Rendering Unit} :
    s.inPlace key = some content → ∀ st, A.SpellsStyle st → A.Writes (content st)
  detail {m : Rendering Unit} : s.detail? = some m → A.Writes m
  html {l : List Node} :
    (∀ n ∈ Node.walkAll l, A.SpellsNode n) → Html.Yields A.SpellsFragments (Html.nodes s.html l)

theorem spells_headerAttributes {d : Dialect} (hd : A.SpellsProfile d.profile) (level : Nat) :
    ∀ a ∈ d.headerAttributes level, A.SpellsAttribute a := by
  unfold Dialect.headerAttributes
  split
  · refine spells_cons (by decide) (spells_staticResource ?_) spells_nil
    exact spells_append.2 ⟨spells_literal rfl, spells_nat _⟩
  · cases level with
    | zero => exact spells_nil
    | succ index =>
      refine List.forall_mem_append.2 ⟨spells_option (by decide) fun _ _ => spells_nat _,
        spells_option (by decide) fun color hc => ?_⟩
      have hm := List.mem_of_getElem? hc
      exact hd color (by simp [Profile.strings, hm])

theorem spells_imageCalls {item : MediaItem} (h : ∀ s ∈ item.strings, A.Spells s) :
    ∀ c ∈ item.image.calls, A.SpellsCall c := by
  refine spells_leaf (spellsTag (by decide) ?_)
  refine List.forall_mem_append.2 ⟨List.forall_mem_append.2 ⟨?_, spells_option (by decide) fun _ _ => spells_nat _⟩,
    spells_option (by decide) fun _ _ => spells_nat _⟩
  exact spells_cons (by decide) (h item.url (List.mem_cons_self ..)) spells_nil

theorem makes_imageHandler {item : MediaItem} (h : ∀ s ∈ item.strings, A.Spells s) (context : HandlerContext) :
    (imageHandler item context).Makes A.SpellsCall fun _ => True := by
  unfold imageHandler
  split
  · trivial
  · refine (makes_calls (spells_imageCalls h)).bind fun answer _ => ?_
    cases answer <;> trivial

section

variable {s : Scope} (hs : A.SpellsScope s)
include hs

omit hs in
theorem writes_offered {handler : HandlerContext → Writing Handled} (a : Alignment)
    {fallback : List String → Rendering Unit} (hh : ∀ context, (handler context).Makes A.SpellsCall fun _ => True)
    (hf : ∀ messages, A.Writes (fallback messages)) : A.Writes (Render.offered handler s a fallback) := by
  intro p hp
  rw [Render.offered_apply]
  refine fun depth => (hh _).bind fun handled _ => ?_
  dsimp only
  split
  · refine (makes_closeTo .close depth).bind fun answer _ => ?_
    exact writes_ofWriting (m := .done answer) trivial _ hp
  · exact (makes_closeTo .close depth).bind fun _ _ => hf [] _ hp
  · exact fun _ _ h => by cases h
  · exact (makes_closeTo .close depth).bind fun _ _ => hf _ _ hp

theorem writes_media {st : Style} {alternative : Rendering Unit} (ha : A.Writes alternative) {items : List MediaItem}
    (hi : ∀ item ∈ items, ∀ t ∈ item.strings, A.Spells t) : A.Writes (Render.media s st alternative items) := by
  induction items with
  | nil => exact ha
  | cons item r ih =>
    obtain ⟨hitem, hr⟩ := List.forall_mem_cons.1 hi
    rw [Render.media]
    split
    · exact ih hr
    · rename_i handler hh
      obtain ⟨key, hm⟩ := mem_of_mediaHandler? hh
      rw [hs.extensions] at hm
      obtain ⟨-, rfl⟩ := Prod.mk.inj (List.mem_singleton.1 hm)
      exact writes_seq (writes_flush hs.profile)
        (writes_offered _ (makes_imageHandler hitem) fun _ => ih hr)

theorem writes_script {st : Style} (hst : A.SpellsStyle st) {expression : String} (h : A.Spells expression)
    (alone : Bool) : A.Writes (Render.script s st expression alone) := by
  have he : s.extensions.evaluator? = none := by
    rw [hs.extensions]
    rfl
  rw [Render.script, he]
  exact writes_text h hst

theorem writes_code (st : Style) {b : CodeBlock} (h : ∀ row ∈ b.rows, A.Spells row) :
    A.Writes (Render.code s st b) := by
  have hc : b.language.bind s.extensions.codeHandler? = none := by
    rw [hs.extensions]
    cases b.language <;> rfl
  rw [Render.code, hc]
  exact writes_codeRows hs.profile st h

theorem writes_standaloneEmoji {st : Style} (hst : A.SpellsStyle st) {e : Emoji} (h : A.Spells e.shortName) :
    A.Writes (Render.standaloneEmoji s st e) := by
  have he : s.extensions.emojiSource? = none := by
    rw [hs.extensions]
    rfl
  have hc (n : Nat) : A.Spells (Text.repeated ":" n) := spells_repeated (spells_literal rfl) n
  rw [Render.standaloneEmoji, he]
  exact writes_text (spells_append.2 ⟨spells_append.2 ⟨hc _, h⟩, hc _⟩) hst

theorem writes_footnoteReference {st : Style} (hst : A.SpellsStyle st) (key : String) (autoExpand : Bool) :
    A.Writes (Render.footnoteReference s st key autoExpand) := by
  unfold Render.footnoteReference
  split
  · exact writes_done trivial
  · split
    · rename_i content hc
      cases autoExpand with
      | true => exact hs.inPlace hc st hst
      | false => cases hc
    · exact writes_bind (writes_ofPass (Html.Yields.any _)) fun number _ => writes_text (spells_nat number) hst

theorem writes_metaText {st : Style} (hst : A.SpellsStyle st) (key : String) :
    A.Writes (Render.metaText s st key) := by
  unfold Render.metaText
  split
  · rename_i value hv
    exact writes_text (hs.document.metadata hv) hst
  · exact writes_done trivial

theorem writes_details {st : Style} (hst : A.SpellsStyle st) : A.Writes (Render.details s st) := by
  unfold Render.details
  split
  · rename_i detail hd
    exact writes_seq (writes_flush hs.profile) (hs.detail hd)
  · exact writes_metaText hs hst _

theorem writes_html (st : Style) {extra : List Attribute} (he : ∀ a ∈ extra, A.SpellsAttribute a) {l : List Node}
    (hl : ∀ n ∈ Node.walkAll l, A.SpellsNode n) : A.Writes (Render.html s st extra l) :=
  writes_bind (writes_ofPass (hs.html hl)) fun _ hf => writes_htmlBlock st.alignment he hf

theorem writes_block {m : Rendering Unit} (hm : A.Writes m) : A.Writes (Render.block s m) :=
  writes_visit (writes_seq (writes_flush hs.profile) hm)

theorem writes_standalone {st : Style} {m : Rendering Unit} (hm : A.Writes m) : A.Writes (Render.standalone s st m) :=
  writes_block hs (writes_padded s.dialect .block _ (writes_flushed hs.profile hm))

omit hs in
theorem writes_nodes {l : List Node} (h : ∀ n ∈ l, ∀ st, A.SpellsStyle st → A.Writes (Render.node s n st)) {st : Style}
    (hst : A.SpellsStyle st) : A.Writes (Render.nodes s l st) := by
  induction l with
  | nil => exact writes_done trivial
  | cons n r ih =>
    obtain ⟨hn, hr⟩ := List.forall_mem_cons.1 h
    exact writes_seq (hn st hst) (ih hr)

theorem writes_node_of_children {n : Node} (hn : ∀ m ∈ n.walk, A.SpellsNode m)
    (h : ∀ m ∈ n.children, ∀ st, A.SpellsStyle st → A.Writes (Render.node s m st)) {st : Style}
    (hst : A.SpellsStyle st) : A.Writes (Render.node s n st) := by
  have all {c : List Node} (hc : ∀ m ∈ c, m ∈ n.children) {st : Style} (hst : A.SpellsStyle st) :=
    writes_nodes (fun m hm => h m (hc m hm)) hst
  have part {m : Node} (hm : m ∈ n.children) : A.WritesPart (s.part m) := fun st hst => h m hm st hst
  have own := (hn n n.self_mem_walk).strings
  have below {c : List Node} (hc : n.children = c) : ∀ m ∈ Node.walkAll c, A.SpellsNode m := fun m hm =>
    hn m (by rw [Node.walk_eq, hc, ← Node.walkAll_eq]; exact List.mem_cons_of_mem n hm)
  have linked {url : String} (hu : A.Spells url) : A.SpellsStyle { st with hyperlink := some url } := by
    intro u h
    cases h
    exact hu
  cases n with
  | text t | hashTag t | inlineCode t => exact writes_visit (writes_text (own t (List.mem_singleton_self _)) hst)
  | strong c | emphasize c | delete c | insert c | underline c | superscript c | subscript c | abbreviation _ c =>
    exact writes_visit (all (fun _ hm => hm) hst)
  | link url c => exact writes_visit (all (fun _ hm => hm) (linked (own url (List.mem_singleton_self _))))
  | linkReference label c =>
    rw [Render.node]
    refine writes_visit (all (fun _ hm => hm) ?_)
    split
    · rename_i target ht
      exact linked (hs.document.references ht target.url (List.mem_cons_self ..))
    · exact hst
  | autoLinkMail address =>
    have ha := own address (List.mem_singleton_self _)
    exact writes_visit (writes_text ha (linked (spells_append.2 ⟨spells_literal rfl, ha⟩)))
  | autoLinkUrl url =>
    have hu := own url (List.mem_singleton_self _)
    exact writes_visit (writes_text hu (linked hu))
  | emoji e => exact writes_visit (writes_text (own e.unicode (List.mem_cons_of_mem _ (List.mem_singleton_self _))) hst)
  | htmlEntity name =>
    exact writes_visit (writes_text (spells_entityText (own name (List.mem_singleton_self _))) hst)
  | htmlEntityUnicode code =>
    rw [Render.node]
    refine writes_visit ?_
    split
    · rename_i c hc
      have h := (hn _ (List.mem_singleton_self _)).code code rfl c hc
      exact writes_text (spells_char.2 h) hst
    · exact writes_done trivial
  | lineBreak => exact writes_visit (writes_text (spells_literal rfl) hst)
  | footnoteReference key autoExpand => exact writes_visit (writes_footnoteReference hs hst key autoExpand)
  | metaReference key => exact writes_visit (writes_metaText hs hst key)
  | detailsReference => exact writes_visit (writes_details hs hst)
  | multimedia items c alone =>
    refine writes_visit (writes_media hs (all (fun _ hm => hm) hst) fun item hi t ht => own t ?_)
    exact List.mem_flatMap.2 ⟨item, hi, ht⟩
  | multimediaReference label c alone =>
    refine writes_visit (writes_media hs (all (fun _ hm => hm) hst) fun item hi => ?_)
    exact hs.document.references (Option.mem_toList.1 hi)
  | inlineScript expression alone =>
    exact writes_visit (writes_script hs hst (own expression (List.mem_singleton_self _)) alone)
  | inlineHtml markup => exact writes_visit (writes_comment (own markup (List.mem_singleton_self _)))
  | paragraph c =>
    exact writes_block hs (writes_padded s.dialect .block _ (writes_flushed hs.profile (all (fun _ hm => hm) hst)))
  | header level c => exact writes_block hs (writes_html hs st (spells_headerAttributes hs.profile _) (below rfl))
  | bulletList items =>
    rw [Render.node, Render.parts_eq, Layout.bullets, List.map_map]
    refine writes_block hs (writes_list hs.profile hst fun i hi => ?_)
    obtain ⟨m, hm, rfl⟩ := List.mem_map.1 hi
    exact ⟨show A.Spells "•" from spells_literal rfl, part hm⟩
  | numberedList items =>
    rw [Render.node, Render.numberedParts_eq]
    refine writes_block hs (writes_list hs.profile hst fun i hi => ?_)
    obtain ⟨k, hk, rfl⟩ := List.mem_iff_getElem.1 hi
    simp only [Layout.numbers, List.getElem_zipWith, List.getElem_map]
    refine ⟨spells_append.2 ⟨spells_nat _, spells_literal rfl⟩, part (Node.mem_children_numberedList ?_)⟩
    exact List.getElem_mem _
  | taskList items =>
    rw [Render.node, Render.taskParts_eq, Layout.checks, List.map_map]
    refine writes_block hs (writes_list hs.profile hst fun i hi => ?_)
    obtain ⟨item, hm, rfl⟩ := List.mem_map.1 hi
    refine ⟨?_, part (Node.mem_children_taskList hm)⟩
    show A.Spells (if item.checked then "✓" else "")
    cases item.checked <;> exact spells_literal rfl
  | definitionList groups =>
    rw [Render.node, Render.groupParts_eq]
    refine writes_block hs (writes_definitionList hs.profile hst fun g hg => ?_)
    obtain ⟨group, hgroup, rfl⟩ := List.mem_map.1 hg
    refine ⟨fun p hp => ?_, fun p hp => ?_⟩
    · obtain ⟨m, hm, rfl⟩ := List.mem_map.1 hp
      exact part (Node.mem_children_terms hgroup hm)
    · obtain ⟨m, hm, rfl⟩ := List.mem_map.1 hp
      exact part (Node.mem_children_descriptions hgroup hm)
  | table t =>
    simp only [Node.strings, List.forall_mem_append, Option.mem_toList] at own
    rw [Render.node_table]
    refine writes_block hs (writes_table hs.profile own.1 own.2 fun row hr cell hc => ?_)
    rw [Table.allRows_map] at hr
    obtain ⟨cells, hcells, rfl⟩ := List.mem_map.1 hr
    obtain ⟨cell?, hcell, hc⟩ := List.mem_map.1 hc
    obtain ⟨_, rfl, rfl⟩ := Option.map_eq_some_iff.1 hc
    exact part (Node.mem_cellContents hcells hcell)
  | blockQuote c | insertBlocks c | deleteBlocks c =>
    exact writes_block hs (writes_panel hs.profile _ st (all (fun _ hm => hm) hst))
  | codeBlock b => exact writes_block hs (writes_code hs st fun row hr => own row (List.mem_append_left _ hr))
  | horizontalRule | sectionSeparator => exact writes_block hs (writes_rule hs.profile)
  | aligned a c => exact writes_block hs (writes_stacked hs.profile (all (fun _ hm => hm) hst))
  | singleChild m =>
    have hm := h m (List.mem_singleton_self m) st hst
    rw [Render.node, Render.spanOrBlock]
    split
    · exact writes_visit hm
    · exact writes_block hs hm
  | nestedBlock c =>
    rw [Render.node]
    split
    · exact writes_visit (all (fun _ hm => hm) hst)
    · exact writes_block hs (writes_flushed hs.profile (all (fun _ hm => hm) hst))
  | standalone m =>
    have hm := h m (List.mem_singleton_self m) st hst
    have hown := (hn m (Node.mem_walk_of_child (List.mem_singleton_self m) m.self_mem_walk)).strings
    cases m with
    | emoji e => exact writes_standalone hs (writes_standaloneEmoji hs hst (hown e.shortName (List.mem_cons_self ..)))
    | inlineScript expression alone =>
      exact writes_standalone hs (writes_script hs hst (hown expression (List.mem_singleton_self _)) false)
    | _ => exact writes_standalone hs hm
  | htmlBlock c => exact writes_block hs (writes_html hs st spells_nil (below rfl))
  | commentBlock lines | invisibleBreak => exact writes_block hs (writes_done trivial)

theorem writes_node {n : Node} (hn : ∀ m ∈ n.walk, A.SpellsNode m) {st : Style} (hst : A.SpellsStyle st) :
    A.Writes (Render.node s n st) := by
  induction n using Node.induction generalizing st with
  | step n ih =>
    refine writes_node_of_children hs hn (fun m hm st hst => ih m hm (fun k hk => hn k ?_) hst) hst
    exact Node.mem_walk_of_child hm hk

theorem writes_allNodes {l : List Node} (hl : ∀ n ∈ Node.walkAll l, A.SpellsNode n) {st : Style}
    (hst : A.SpellsStyle st) : A.Writes (Render.nodes s l st) := by
  refine writes_nodes (fun n hn st hst => writes_node hs (fun m hm => hl m ?_) hst) hst
  exact Node.mem_walkAll_of_mem hn hm

theorem writes_footnoteContent {l : List Node} (hl : ∀ n ∈ Node.walkAll l, A.SpellsNode n) {st : Style}
    (hst : A.SpellsStyle st) : A.Writes (Render.footnoteContent s l st) := by
  induction l with
  | nil => exact writes_done trivial
  | cons n r ih =>
    have hr := ih fun m hm => hl m (List.mem_append_right _ hm)
    have hn {m : Node} (hm : m ∈ n.walk) : A.SpellsNode m := hl m (List.mem_append_left _ hm)
    cases n with
    | paragraph c => exact writes_seq (writes_allNodes hs (fun m hm => hn (List.mem_cons_of_mem _ hm)) hst) hr
    | _ => exact writes_seq (writes_node hs (fun m hm => hn hm) hst) hr

/-! ### Documents -/

omit hs in
theorem spellsStyle_plain : A.SpellsStyle .plain := fun _ h => by cases h

theorem writes_rowContent (key : String) : A.Writes (Render.rowContent s key) := by
  unfold Render.rowContent
  split
  · rename_i f hf
    exact writes_allNodes hs (hs.document.footnotes f (Footnotes.mem_of_get? hf)) spellsStyle_plain
  · exact writes_done trivial

omit hs in
/-- What depends on the state of the token alone. -/
theorem writes_get {f : Progress → Rendering Unit} (h : ∀ p, A.Writes (f p)) : A.Writes (get >>= f) :=
  fun p hp => h p p hp

theorem writes_footnoteRows (numbering : Numbering) : A.Writes (Render.footnoteRows s numbering) := by
  unfold Render.footnoteRows
  split
  · exact writes_done trivial
  · refine writes_seq (writes_modify fun _ hp => hp) (writes_footnotes hs.profile fun m hm => ?_)
    obtain ⟨key, -, rfl⟩ := List.mem_map.1 hm
    exact writes_rowContent hs key

theorem writes_body : A.Writes (Render.body s) := by
  have start (n : Numbering) : A.Writes (modify fun p => { p with traversal := { p.traversal with numbering := n } }) :=
    writes_modify fun _ hp => hp
  refine writes_get fun outer => writes_seq (start ∅) (writes_seq (writes_seq ?_ ?_) (start _))
  · exact writes_flushed hs.profile (writes_allNodes hs hs.document.nodes spellsStyle_plain)
  · exact writes_get fun p => writes_footnoteRows hs _

omit hs in
/-- Footnotes that are expanded in place are spelled in the alphabet, so the scope of them spells. -/
theorem spells_expandingScope (hx : s.extensions = .standard) (hp : A.SpellsProfile s.dialect.profile)
    (hd : A.SpellsDocument s.document) (hdetail : ∀ m, s.detail? = some m → A.Writes m)
    (he : s.html.evaluator? = none) (hh : A.SpellsDocument s.html.document) (levels : Nat) (expanding : List String) :
    A.SpellsScope (Render.expandingScope s levels expanding) := by
  -- as in a footnote one level less is left, by induction on the levels
  induction levels generalizing expanding with
  | zero =>
    exact {
      extensions := hx
      profile := hp
      document := hd
      inPlace := fun h => by cases h
      detail := fun h => hdetail _ h
      html := spells_htmlNodes (s := s.html.expanding 0 expanding) he hh (spells_htmlInPlace he hh 0 expanding) }
  | succ levels ih =>
    refine {
      extensions := hx
      profile := hp
      document := hd
      inPlace := fun {key content} h st hst => ?_
      detail := fun h => hdetail _ h
      html := spells_htmlNodes (s := s.html.expanding (levels + 1) expanding) he hh
        (spells_htmlInPlace he hh (levels + 1) expanding) }
    simp only [Render.expandingScope] at h
    split at h
    · cases h
    · obtain ⟨f, hf, rfl⟩ := Option.map_eq_some_iff.1 h
      exact writes_footnoteContent (ih _) (hd.footnotes f (Footnotes.mem_of_get? hf)) hst

end

variable {setting : Setting} (hx : setting.extensions = .standard) (hp : A.SpellsProfile setting.dialect.profile)
include hx hp

theorem spells_documentScope {d : Document} (hd : A.SpellsDocument d) {detail? : Option (Rendering Unit)}
    (hdetail : ∀ m, detail? = some m → A.Writes m) (nested : Document → Rendering Unit)
    (nestedHtml : Document → Html.Part) :
    A.SpellsScope (Render.documentScope setting nested nestedHtml d detail?) :=
  spells_expandingScope (s := ⟨setting, d, _, detail?, nested, _⟩) hx hp hd hdetail
    (congrArg Extensions.evaluator? hx) hd _ _

theorem writes_included (nested : Document → Rendering Unit) (nestedHtml : Document → Html.Part) (d : Document)
    (hd : ∀ e ∈ d.layers, A.SpellsDocument e) : A.Writes (Render.included setting nested nestedHtml d) := by
  fun_induction Document.layers d with
  | case1 nodes footnotes references metadata =>
    rw [Render.included]
    refine writes_body (spells_documentScope hx hp (hd _ (List.mem_cons_self ..)) (fun m h => ?_) _ _)
    cases h
  | case2 nodes footnotes references detail metadata ih =>
    rw [Render.included]
    refine writes_body (spells_documentScope hx hp (hd _ (List.mem_cons_self ..)) (fun m h => ?_) _ _)
    cases h
    exact ih fun e he => hd e (List.mem_cons_of_mem _ he)

/-- All that is called for a document has names of XML, and is spelled in the alphabet. -/
theorem spells_renderUntil (limit : Nat) {d : Document} (hd : ∀ e ∈ d.layers, A.SpellsDocument e) (inclusion : Bool)
    (fuse? : Option Nat) {σ : Type} [Markup.Writer σ] (w : σ) :
    ∀ c ∈ (renderUntil setting limit d inclusion fuse?).made w, A.SpellsCall c := by
  refine Makes.made (R := fun _ => True) ?_ w
  have hc := writes_included hx hp (Render.scriptDocument setting limit)
    (Html.nestedDocument setting.extensions.evaluator? setting.dialect.profile limit) d hd
  have hdocument : A.Writes (Render.document setting limit d inclusion) := by
    unfold Render.document
    dsimp only
    split
    · exact hc
    · exact writes_element (spells_root _) hc
  refine fun depth => (hdocument _ fun i hi => (List.not_mem_nil hi).elim).bind fun r _ => ?_
  cases r with
  | ok _ => trivial
  | error e => exact (makes_closeTo .close depth).bind fun _ _ => trivial

end Alphabet

end XamlDoc
