import XamlDoc.Proofs.Render.Abreast

/-!
# Nodes and documents abreast

The nodes of one document, rendered in scopes of their own, gone through once for all relations of renderings
abreast. What lies outside a node, such as the contents of footnotes and the documents of scripts, is left to the
relation.
-/

namespace XamlDoc

open Markup (WriteError Writing)
open Rendering Layout Render

variable {ι : Type}

/-- What a relation says about tables among the nodes `A`, if it holds of what has a place in them. -/
def Render.TablesTogether (M : ι → Memory) (R : Phase → Phase → (α : Type) → (ι → Rendering α) → Prop)
    (d : ι → Dialect) (A : Node → Prop) : Prop :=
  ∀ {t : Table Node} {part : ι → Node → Part} {margins : Node → Margins} {isInline : Node → Bool}, A (.table t) →
    (∀ n ∈ t.placed, Part.Abreast R (margins n) (isInline n) fun x => part x n) →
      R .settled .settled Unit fun x => @Layout.table (d x) (M x) (t.map (part x))

/-- What a relation says about the pieces of nodes that depend on the memories and scopes, if all nodes are such as
`A` says. The documents have the references and metadata of `D`. -/
structure Render.Together (M : ι → Memory) (R : Phase → Phase → (α : Type) → (ι → Rendering α) → Prop)
    (d : ι → Dialect) (D : Document) (A : Node → Prop) (s : ι → Scope) : Prop where
  dialect (x : ι) : (s x).dialect = d x
  references (x : ι) : (s x).document.references = D.references
  metadata (x : ι) : (s x).document.metadata = D.metadata
  emoji (st : Style) (e : Emoji) : R .settled .flowing Unit fun x => standaloneEmoji (s x) st e
  reference (st : Style) (key : String) (autoExpand : Bool) :
    R .flowing .flowing Unit fun x => footnoteReference (s x) st key autoExpand
  script (st : Style) {expression : String} {alone : Bool} : A (.inlineScript expression alone) → ∀ inline,
    R .flowing .flowing Unit fun x => script (s x) st expression inline
  details (st : Style) : R .flowing .flowing Unit fun x => details (s x) st
  media (st : Style) (items : List MediaItem) {alternative : ι → Rendering Unit} :
    R .flowing .flowing Unit alternative →
      R .flowing .flowing Unit fun x => media (s x) st (alternative x) items
  code (st : Style) (b : CodeBlock) : R .settled .settled Unit fun x => code (s x) st b
  table : TablesTogether M R d A
  html {l : List Node} : (∀ n ∈ l, n.Throughout A) →
    R .settled .settled (List Html.Fragment) fun x => ofPass (@Html.nodes (M x) (s x).html l)

/-! ### Pieces of nodes -/

namespace Abreast

variable {profile : Profile} {d : ι → Dialect} {R : Phase → Phase → (α : Type) → (ι → Rendering α) → Prop}
  (h : Abreast profile d R) {s : ι → Scope} (hd : ∀ x, (s x).dialect = d x)

include h

include hd in
theorem scope_profile (x : ι) : (s x).profile = profile := (congrArg Dialect.profile (hd x)).trans (h.agree x)

theorem flushed_first {m : ι → Rendering Unit} (hm : R .settled .settled Unit m) :
    R .flowing .flowing Unit (fun x => do Rendering.flush profile; m x) := h.leave (h.seq h.flush hm)

theorem cancelIf (i : Phase) (cancels : Bool) : R i i Unit fun _ => cancelIf cancels :=
  h.pass i (.cancel cancels)

theorem metaText {M : Metadata} (hM : ∀ x, (s x).document.metadata = M) (st : Style) (key : String) :
    R .flowing .flowing Unit fun x => metaText (s x) st key := by
  simp only [Render.metaText, hM]
  split
  · exact h.text _ _
  · exact h.done _ ()

theorem standaloneEmoji {source? : Option EmojiSource} (hs : ∀ x, (s x).extensions.emojiSource? = source?)
    (st : Style) (e : Emoji) : R .settled .flowing Unit fun x => standaloneEmoji (s x) st e := by
  simp only [Render.standaloneEmoji, hs]
  split
  · exact h.enter (h.text _ _)
  · split
    · exact h.leave (h.whole (Image.calls_whole _))
    · exact h.enter (h.text _ _)

theorem declaredReference {key : String} {declared : Bool}
    (hf : ∀ x, ((s x).document.footnotes.get? key).isSome = declared)
    (hi : (∀ x, (s x).inPlace key = none) ∨ ∃ content : ι → Style → Rendering Unit,
      (∀ x, (s x).inPlace key = some (content x)) ∧ ∀ st, R .flowing .flowing Unit fun x => content x st)
    (st : Style) (autoExpand : Bool) :
    R .flowing .flowing Unit fun x => footnoteReference (s x) st key autoExpand := by
  have hn : R .flowing .flowing Unit (fun _ => do
      let number ← ofPass (modifyGet fun t => t.reference key)
      Rendering.text (toString number) { st with superscript := true }) :=
    h.andThen (h.pass _ (.reference key)) fun _ => h.text _ _
  simp only [footnoteReference_eq, hf]
  cases declared with
  | false => exact h.done _ ()
  | true =>
    cases autoExpand with
    | false => exact hn
    | true =>
      obtain hi | ⟨content, hi, hc⟩ := hi
      · simp only [hi, if_true]
        exact hn
      · simp only [hi, if_true]
        exact hc st

theorem footnoteReference {D : Document} (hD : ∀ x, (s x).document = D) {key : String}
    (hi : (∀ x, (s x).inPlace key = none) ∨ ∃ content : ι → Style → Rendering Unit,
      (∀ x, (s x).inPlace key = some (content x)) ∧ ∀ st, R .flowing .flowing Unit fun x => content x st)
    (st : Style) (autoExpand : Bool) :
    R .flowing .flowing Unit fun x => footnoteReference (s x) st key autoExpand := by
  have hf (x : ι) : ((s x).document.footnotes.get? key).isSome = (D.footnotes.get? key).isSome := by rw [hD]
  exact h.declaredReference hf hi st autoExpand

include hd

theorem details {M : Metadata} (hM : ∀ x, (s x).document.metadata = M)
    (hm : (∀ x, (s x).detail? = none) ∨ ∃ m : ι → Rendering Unit,
      (∀ x, (s x).detail? = some (m x)) ∧ R .settled .settled Unit m)
    (st : Style) : R .flowing .flowing Unit fun x => details (s x) st := by
  obtain hm | ⟨m, hm, hr⟩ := hm
  · simp only [Render.details, hm]
    exact h.metaText hM st "Details"
  · simp only [Render.details, hm, h.scope_profile hd]
    exact h.flushed_first hr

theorem scriptValue {v : ScriptValue}
    (hn : ∀ D, v = .document D → R .settled .settled Unit fun x => (s x).nested D) (st : Style) (alone : Bool) :
    R .flowing .flowing Unit fun x => scriptValue (s x) st alone v := by
  simp only [Render.scriptValue, Render.image, h.scope_profile hd, hd]
  split
  · split
    · exact h.flushed_first (h.textBlock _ _)
    · exact h.text _ _
  · split
    · rename_i i _
      exact h.flushed_first (h.whole i.calls_whole)
    · split
      · exact h.flushed_first (hn _ rfl)
      · exact h.done _ ()

theorem scriptError (st : Style) (alone : Bool) (e : ScriptError) :
    R .flowing .flowing Unit fun x => scriptError (s x) st alone e := by
  simp only [Render.scriptError, h.scope_profile hd, hd]
  split
  · exact h.append _ _
  · exact h.flushed_first (h.inOrder fun _ _ => h.errorBlock _ _)

theorem script {evaluator? : Option Evaluator} (he : ∀ x, (s x).extensions.evaluator? = evaluator?)
    {expression : String} (hn : ∀ evaluate D, evaluator? = some evaluate →
      (evaluate expression).result = .ok (.document D) → R .settled .settled Unit fun x => (s x).nested D)
    (st : Style) (alone : Bool) :
    R .flowing .flowing Unit fun x => script (s x) st expression alone := by
  simp only [Render.script, he]
  cases evaluator? with
  | none => exact h.text _ _
  | some evaluate =>
    refine h.seq (h.cancelIf _ _) ?_
    cases hr : (evaluate expression).result with
    | ok v => exact h.scriptValue hd (fun D hv => hn evaluate D rfl (hv ▸ hr)) st alone
    | error e => exact h.scriptError hd st alone e.unnest

end Abreast

/-! ### Nodes -/

namespace Render.Together

variable {profile : Profile} {d : ι → Dialect} {R : Phase → Phase → (α : Type) → (ι → Rendering α) → Prop}
  (M : ι → Memory) {D : Document} {A : Node → Prop} {s : ι → Scope} (h : Abreast profile d R)
include h

theorem nodes {l : List Node} (hl : ∀ n ∈ l, ∀ st, R .flowing .flowing Unit fun x => @node (M x) (s x) n st)
    (st : Style) : R .flowing .flowing Unit fun x => @nodes (M x) (s x) l st := by
  induction l with
  | nil => exact h.done _ ()
  | cons n r ih =>
    exact h.seq (hl n (List.mem_cons_self ..) st) (ih fun m hm => hl m (List.mem_cons_of_mem n hm))

variable {M} (hs : Together M R d D A s)
include hs

theorem block {m : ι → Rendering Unit} (hm : R .settled .settled Unit m) :
    R .flowing .flowing Unit fun x => block (s x) (m x) := by
  simp only [Render.block, h.scope_profile hs.dialect]
  exact h.visit (h.flushed_first hm)

theorem standalone (st : Style) {m : ι → Rendering Unit} (hm : R .settled .flowing Unit m) :
    R .flowing .flowing Unit fun x => standalone (s x) st (m x) := by
  simp only [Render.standalone, hs.dialect]
  exact hs.block h (h.padded _ _ (h.flushed hm))

/-- The HTML of a label, in the style of the header level if there is one. -/
theorem htmlLabel (st : Style) (level? : Option Nat) {l : List Node} (hl : ∀ n ∈ l, n.Throughout A) :
    R .settled .settled Unit fun x =>
      @Render.html (M x) (s x) st ((level?.map (d x).headerAttributes).getD []) l := by
  simp only [Render.html, hs.dialect]
  exact h.andThen (hs.html hl) fun _ => h.htmlBlock _ level? _

theorem node {n : Node} (hn : n.Throughout A) (st : Style) :
    R .flowing .flowing Unit fun x => @node (M x) (s x) n st := by
  induction n using Node.induction generalizing st with
  | step n ih =>
    have ih (m : Node) (hm : m ∈ n.children) := ih m hm (hn.child hm)
    have all {l : List Node} (hl : ∀ m ∈ l, m ∈ n.children) (st : Style) :=
      nodes M h (fun m hm => ih m (hl m hm)) st
    have part (m : Node) (hm : m ∈ n.children) :
        Part.Abreast R m.margins m.isInline fun x => @Scope.part (M x) (s x) m :=
      ⟨fun _ => rfl, fun _ => rfl, ih m hm⟩
    cases n with
    | text t | hashTag t | inlineCode t | autoLinkMail t | autoLinkUrl t | lineBreak =>
      exact h.visit (h.text _ _)
    | emoji e | htmlEntity name => exact h.visit (h.text _ _)
    | strong l | emphasize l | delete l | insert l | underline l | superscript l | subscript l
    | abbreviation _ l | link _ l => exact h.visit (all (fun _ hm => hm) _)
    | linkReference label l =>
      simp only [Render.node, hs.references]
      exact h.visit (all (fun _ hm => hm) _)
    | htmlEntityUnicode code =>
      simp only [Render.node]
      refine h.visit ?_
      split
      · exact h.text _ _
      · exact h.done _ ()
    | footnoteReference key autoExpand => exact h.visit (hs.reference st key autoExpand)
    | metaReference key => exact h.visit (h.metaText hs.metadata st key)
    | detailsReference => exact h.visit (hs.details st)
    | multimedia items l alone => exact h.visit (hs.media st items (all (fun _ hm => hm) st))
    | multimediaReference label l alone =>
      simp only [Render.node, hs.references]
      exact h.visit (hs.media st _ (all (fun _ hm => hm) st))
    | inlineScript expression alone => exact h.visit (hs.script st hn.self alone)
    | inlineHtml markup => exact h.visit (h.comment markup)
    | paragraph l =>
      simp only [Render.node, hs.dialect]
      exact hs.block h (h.padded _ _ (h.flushed (h.enter (all (fun _ hm => hm) st))))
    | header level l =>
      simp only [Render.node, hs.dialect]
      exact hs.block h (hs.htmlLabel h st (some level.toNat) fun m hm => hn.child hm)
    | bulletList l =>
      simp only [Render.node, hs.dialect, parts_eq, bullets, List.map_map]
      exact hs.block h (h.list st part)
    | numberedList items =>
      simp only [Render.node, hs.dialect, numberedParts_eq]
      exact hs.block h (h.numberedList st fun i hi => part _ (Node.mem_children_numberedList hi))
    | taskList items =>
      simp only [Render.node, hs.dialect, taskParts_eq]
      exact hs.block h (h.taskList st fun i hi => part _ (Node.mem_children_taskList hi))
    | definitionList groups =>
      simp only [Render.node, hs.dialect, groupParts_eq]
      refine hs.block h (h.definitionList st fun g hg m hm => part m ?_)
      rcases List.mem_append.1 hm with hm | hm
      · exact Node.mem_children_terms hg hm
      · exact Node.mem_children_descriptions hg hm
    | table t =>
      simp only [node_table, hs.dialect]
      refine hs.block h (hs.table hn.self fun m hm => part m ?_)
      obtain ⟨row, hr, hm⟩ := List.mem_flatMap.1 hm
      obtain ⟨cell, hc, rfl⟩ := Row.mem_of_mem_placed hm
      exact Node.mem_cellContents hr hc
    | blockQuote l | insertBlocks l | deleteBlocks l =>
      simp only [Render.node, hs.dialect]
      exact hs.block h (h.panel _ _ (h.enter (all (fun _ hm => hm) st)))
    | codeBlock b => exact hs.block h (hs.code st b)
    | horizontalRule | sectionSeparator =>
      simp only [Render.node, hs.dialect]
      exact hs.block h (h.leaf Common.rule)
    | aligned a l =>
      simp only [Render.node, hs.dialect]
      exact hs.block h (h.stacked (h.enter (all (fun _ hm => hm) _)))
    | singleChild m =>
      have hm := ih m (List.mem_singleton_self m) st
      simp only [Render.node, spanOrBlock]
      split
      · exact h.visit hm
      · simp only [Render.block, h.scope_profile hs.dialect]
        exact h.visit (h.seq h.flush (h.enter hm))
    | nestedBlock l =>
      simp only [Render.node, hs.dialect]
      split
      · exact h.visit (all (fun _ hm => hm) st)
      · exact hs.block h (h.flushed (h.enter (all (fun _ hm => hm) st)))
    | standalone m =>
      cases m with
      | emoji e => exact hs.standalone h st (hs.emoji st e)
      | inlineScript expression alone =>
        have he := (hn.child (List.mem_singleton_self _)).self
        exact hs.standalone h st (h.enter (hs.script st he false))
      | _ => exact hs.standalone h st (h.enter (ih _ (List.mem_singleton_self _) st))
    | htmlBlock l => exact hs.block h (hs.htmlLabel h st none fun m hm => hn.child hm)
    | commentBlock _ | invisibleBreak => exact hs.block h (h.done _ ())

theorem all {l : List Node} (hl : ∀ n ∈ l, n.Throughout A) (st : Style) :
    R .flowing .flowing Unit fun x => @Render.nodes (M x) (s x) l st := nodes M h (fun n hn => hs.node h (hl n hn)) st

theorem footnoteContent {l : List Node} (hl : ∀ n ∈ l, n.Throughout A) (st : Style) :
    R .flowing .flowing Unit fun x => @footnoteContent (M x) (s x) l st := by
  induction l with
  | nil => exact h.done _ ()
  | cons n r ih =>
    obtain ⟨hn, hr⟩ := List.forall_mem_cons.1 hl
    cases n with
    | paragraph l => exact h.seq (hs.all h (fun m hm => hn.child hm) st) (ih hr)
    | _ => exact h.seq (hs.node h hn st) (ih hr)

variable (hd : ∀ x, (s x).document = D) (hD : D.Throughout A)
include hd hD

theorem rowContent (key : String) : R .flowing .flowing Unit fun x => @rowContent (M x) (s x) key := by
  simp only [Render.rowContent, hd]
  split
  · rename_i f hf
    exact hs.all h (hD.footnote hf) _
  · exact h.done _ ()

theorem footnoteSection : R .settled .settled Unit fun x => @footnoteSection (M x) (s x) := by
  simp only [footnoteSection_eq]
  refine h.andThen (h.pass _ .numbering) fun numbering => ?_
  simp only [footnoteRows, hd, hs.dialect]
  split
  · exact h.done _ ()
  · simp only [setNumbering_eq]
    refine h.seq (h.pass _ (.renumber _)) ?_
    exact h.footnotes fun key _ => h.enter (hs.rowContent h hd hD key)

theorem body : R .settled .settled Unit fun x => @body (M x) (s x) := by
  have hn := h.flushed (h.enter (hs.all h hD.nodes .plain))
  have hf := hs.footnoteSection h hd hD
  simp only [Render.body, ownNumbers_eq, hd, hs.dialect]
  refine h.andThen (h.pass _ .numbering) fun outer => h.seq (h.pass _ (.renumber ∅)) (h.seq (h.seq hn hf) ?_)
  exact h.pass _ (.renumber outer)

end Render.Together

/-! ### Documents -/

/-- What a relation says about handlers, in settings that share a source of emoji and an evaluator. -/
structure InSettings (R : Phase → Phase → (α : Type) → (ι → Rendering α) → Prop) (d : ι → Dialect)
    (source? : Option EmojiSource) (evaluator? : Option Evaluator) (S : ι → Setting) : Prop where
  dialect (x : ι) : (S x).dialect = d x
  emojiSource (x : ι) : (S x).extensions.emojiSource? = source?
  evaluator (x : ι) : (S x).extensions.evaluator? = evaluator?
  media {s : ι → Scope} (st : Style) (items : List MediaItem) {alternative : ι → Rendering Unit} :
    (∀ x, (s x).setting = S x) → R .flowing .flowing Unit alternative →
      R .flowing .flowing Unit fun x => media (s x) st (alternative x) items
  code {s : ι → Scope} (st : Style) (b : CodeBlock) :
    (∀ x, (s x).setting = S x) → R .settled .settled Unit fun x => code (s x) st b

section

variable {R : Phase → Phase → (α : Type) → (ι → Rendering α) → Prop} {S : Setting}
  (h : Abreast S.dialect.profile (fun _ => S.dialect) R)
  (hq : ∀ {α : Type} (w : Writing α), R .settled .settled α fun _ => ofQuiet w)
  (hw : ∀ w : Writing (Except WriteError Unit), R .settled .settled Unit fun _ => ofWriting w)
include h hq hw

theorem Abreast.offered {s : ι → Scope} (hd : ∀ x, (s x).dialect = S.dialect)
    (handler : HandlerContext → Writing Handled) (a : Alignment) {j : Phase}
    {fallback : ι → List String → Rendering Unit}
    (hj : ∀ {m : ι → Rendering Unit}, R .settled .settled Unit m → R .settled j Unit m)
    (hf : ∀ messages, R .settled j Unit fun x => fallback x messages) :
    R .settled j Unit fun x => offered handler (s x) a (fallback x) := by
  have ho : R .settled .settled _ fun x => offer handler (s x) a := by
    simp only [Render.offer, hd]
    exact h.andThen (hq _) fun _ => h.andThen (h.cancelIf _ _) fun _ => h.done _ _
  refine h.andThen (hq Writing.depth) fun depth => h.andThen ho fun result => ?_
  rcases result with e | outcome
  · cases e with
    | write e => exact hj (hw (.done (.error e)))
    | _ => exact h.seq (hq _) (hf _)
  · cases outcome with
    | rendered => exact hj (hw _)
    | declined => exact h.seq (hq _) (hf _)

/-- In one and the same setting, a relation says what it has to if it says that writings do the same. -/
theorem InSettings.same :
    InSettings R (fun _ => S.dialect) S.extensions.emojiSource? S.extensions.evaluator? fun _ => S where
  dialect _ := rfl
  emojiSource _ := rfl
  evaluator _ := rfl
  media {s} st items alternative hs ha := by
    have hd (x : ι) : (s x).dialect = S.dialect := congrArg Setting.dialect (hs x)
    have hx (x : ι) : (s x).extensions = S.extensions := congrArg Setting.extensions (hs x)
    induction items with
    | nil => exact ha
    | cons item r ih =>
      simp only [Render.media, hx, h.scope_profile hd]
      cases item.type?.bind S.extensions.mediaHandler? with
      | none => exact ih
      | some handler => exact h.seq h.flush (h.offered hq hw hd (handler item) _ h.leave fun _ => h.enter ih)
  code {s} st b hs := by
    have hd (x : ι) : (s x).dialect = S.dialect := congrArg Setting.dialect (hs x)
    have hx (x : ι) : (s x).extensions = S.extensions := congrArg Setting.extensions (hs x)
    simp only [Render.code, Render.plainCode, hx, hd]
    cases b.language.bind S.extensions.codeHandler? with
    | none => exact h.codeRows _ _
    | some handler =>
      refine h.offered hq hw hd (handler b) _ id fun messages => h.seq ?_ (h.codeRows _ _)
      exact h.inOrder fun _ _ => h.errorBlock _ _

end

/-- What a relation says about the documents that the scripts among the nodes `A` return. -/
structure ScriptDocuments (M : ι → Memory) (R : Phase → Phase → (α : Type) → (ι → Rendering α) → Prop)
    (A : Node → Prop) (profile : Profile) (evaluator? : Option Evaluator) (nested : ι → Document → Rendering Unit)
    (nestedHtml : ι → Document → Html.Part) : Prop where
  elements {expression : String} {alone : Bool} (hA : A (.inlineScript expression alone)) (evaluate : Evaluator)
    (D : Document) : evaluator? = some evaluate → (evaluate expression).result = .ok (.document D) →
      R .settled .settled Unit fun x => nested x D
  html {D : Document} (hD : D.Throughout A) (levels : Nat) (expanding : List String) {l : List Node} :
    (∀ n ∈ l, n.Throughout A) → R .settled .settled (List Html.Fragment) fun x => ofPass <|
      @Html.nodes (M x) (@Html.Scope.expanding (M x) ⟨evaluator?, profile, D, fun _ => none, nestedHtml x⟩
        levels expanding) l

/-- The scope of a document before any of its footnotes can be expanded. -/
def Render.bareScope (S : Setting) (nested : Document → Rendering Unit) (nestedHtml : Document → Html.Part)
    (D : Document) (detail? : Option (Rendering Unit)) : Scope :=
  ⟨S, D, fun _ => none, detail?, nested,
    ⟨S.extensions.evaluator?, S.dialect.profile, D, fun _ => none, nestedHtml⟩⟩

namespace InSettings

variable {profile : Profile} {d : ι → Dialect} {R : Phase → Phase → (α : Type) → (ι → Rendering α) → Prop}
  {source? : Option EmojiSource} {evaluator? : Option Evaluator} {S : ι → Setting} {M : ι → Memory} {A : Node → Prop}
  {nested : ι → Document → Rendering Unit} {nestedHtml : ι → Document → Html.Part}
  (h : Abreast profile d R) (hS : InSettings R d source? evaluator? S) (ht : TablesTogether M R d A)
include h hS ht

/-- Scopes in the settings, of documents with the references and metadata of one. -/
theorem scope {s : ι → Scope} {D : Document} (hs : ∀ x, (s x).setting = S x)
    (hR : ∀ x, (s x).document.references = D.references) (hM : ∀ x, (s x).document.metadata = D.metadata)
    (hn : ∀ {expression alone}, A (.inlineScript expression alone) → ∀ evaluate D, evaluator? = some evaluate →
      (evaluate expression).result = .ok (.document D) → R .settled .settled Unit fun x => (s x).nested D)
    (hm : (∀ x, (s x).detail? = none) ∨ ∃ m : ι → Rendering Unit,
      (∀ x, (s x).detail? = some (m x)) ∧ R .settled .settled Unit m)
    (hr : ∀ st key autoExpand, R .flowing .flowing Unit fun x => footnoteReference (s x) st key autoExpand)
    (hh : ∀ {l : List Node}, (∀ n ∈ l, n.Throughout A) →
      R .settled .settled (List Html.Fragment) fun x => ofPass (@Html.nodes (M x) (s x).html l)) :
    Together M R d D A s := by
  have hd (x : ι) : (s x).dialect = d x := by rw [Scope.dialect, hs, hS.dialect]
  have hx (x : ι) : (s x).extensions = (S x).extensions := congrArg Setting.extensions (hs x)
  have he (x : ι) : (s x).extensions.evaluator? = evaluator? := by rw [hx, hS.evaluator]
  refine ⟨hd, hR, hM, ?_, hr, fun st {_ _} hA inline => h.script hd he (hn hA) st inline, h.details hd hM hm, ?_, ?_,
    ht, hh⟩
  · exact h.standaloneEmoji fun x => by rw [hx, hS.emojiSource]
  · exact fun st items _ ha => hS.media st items hs ha
  · exact fun st b => hS.code st b hs

variable (hn : ScriptDocuments M R A profile evaluator? nested nestedHtml)
include hn

section

variable {D : Document} (hD : D.Throughout A) {detail? : ι → Option (Rendering Unit)}
  (hm : (∀ x, detail? x = none) ∨ ∃ m : ι → Rendering Unit,
    (∀ x, detail? x = some (m x)) ∧ R .settled .settled Unit m)
include hD hm

theorem expandingScope (levels : Nat) (expanding : List String) : Together M R d D A fun x =>
    @expandingScope (M x) (bareScope (S x) (nested x) (nestedHtml x) D (detail? x)) levels expanding := by
  let within (levels : Nat) (expanding : List String) (x : ι) :=
    @Render.expandingScope (M x) (bareScope (S x) (nested x) (nestedHtml x) D (detail? x)) levels expanding
  have hh (levels : Nat) (expanding : List String) {l : List Node} (hl : ∀ n ∈ l, n.Throughout A) :
      R .settled .settled (List Html.Fragment) fun x => ofPass <| @Html.nodes (M x) (@Html.Scope.expanding (M x)
        (bareScope (S x) (nested x) (nestedHtml x) D (detail? x)).html levels expanding) l := by
    simp only [bareScope, hS.evaluator, hS.dialect, h.agree]
    exact hn.html hD levels expanding hl
  induction levels generalizing expanding with
  | zero =>
    refine hS.scope h ht (fun _ => rfl) (fun _ => rfl) (fun _ => rfl) hn.elements hm (fun st key => ?_)
      (hh 0 expanding)
    exact h.footnoteReference (s := within 0 expanding) (fun _ => rfl) (.inl fun _ => rfl) st
  | succ levels ih =>
    refine hS.scope h ht (fun _ => rfl) (fun _ => rfl) (fun _ => rfl) hn.elements hm (fun st key => ?_)
      (hh (levels + 1) expanding)
    refine h.footnoteReference (s := within (levels + 1) expanding) (fun _ => rfl) ?_ st
    simp only [within, Render.expandingScope, bareScope]
    split
    · exact .inl fun _ => rfl
    · cases hf : D.footnotes.get? key with
      | none => exact .inl fun _ => rfl
      | some f =>
        exact .inr ⟨_, fun _ => rfl, fun st => (ih (key :: expanding)).footnoteContent h (hD.footnote hf) st⟩

theorem documentBody : R .settled .settled Unit fun x =>
    @Render.body (M x) (@documentScope (M x) (S x) (nested x) (nestedHtml x) D (detail? x)) := by
  have hd (x : ι) : (@documentScope (M x) (S x) (nested x) (nestedHtml x) D (detail? x)).document = D :=
    @expandingScope_document (M x) ..
  have hs : Together M R d D A fun x => @documentScope (M x) (S x) (nested x) (nestedHtml x) D (detail? x) :=
    hS.expandingScope h ht hn hD hm D.footnotes.size []
  have hb := hs.body h hd hD
  exact hb

end

theorem included {D : Document} (hD : D.Throughout A) :
    R .settled .settled Unit fun x => @included (M x) (S x) (nested x) (nestedHtml x) D := by
  obtain ⟨nodes, footnotes, references, detail?, metadata⟩ := D
  cases detail? with
  | none => exact hS.documentBody h ht hn hD (.inl fun _ => rfl)
  | some detail => exact hS.documentBody h ht hn hD (.inr ⟨_, fun _ => rfl, included hD.detail⟩)

end InSettings

namespace InSettings

variable {profile : Profile} {d : ι → Dialect} {R : Phase → Phase → (α : Type) → (ι → Rendering α) → Prop}
  {source? : Option EmojiSource} {evaluator? : Option Evaluator} {S : ι → Setting}
  (h : Abreast profile d R) (hS : InSettings R d source? evaluator? S)
include h hS

/-- Documents, each with as many levels of documents of scripts as it likes. -/
theorem documentWithin {M : ι → Memory} {A : Node → Prop} {limit : ι → Nat} (ht : TablesTogether M R d A)
    (hn : ScriptDocuments M R A profile evaluator? (fun x => @scriptDocument (M x) (S x) (limit x)) fun x =>
      @Html.nestedDocument (M x) evaluator? profile (limit x))
    {D : Document} (hD : D.Throughout A) (inclusion : Bool) :
    R .settled .settled Unit fun x => @document (M x) (S x) (limit x) D inclusion := by
  have hi := hS.included h ht hn hD
  simp only [Render.document, hS.evaluator, hS.dialect, h.agree]
  split
  · exact hi
  · exact h.element Common.root hi

variable (hp : ∀ {α : Type} (m : Html.Pass α), R .settled .settled α fun _ => ofPass m)
include hp

theorem scriptDocuments (limit : Nat) : ScriptDocuments (fun _ => .unlimited) R (fun _ => True) profile evaluator?
    (fun x => scriptDocument (S x) limit) fun _ => Html.nestedDocument evaluator? profile limit := by
  induction limit with
  | zero => exact ⟨fun _ _ _ _ _ => hp (throw .tooDeep), fun _ _ _ _ _ => hp _⟩
  | succ limit ih =>
    refine ⟨fun _ _ D _ _ => ?_, fun _ _ _ _ _ => hp _⟩
    simp only [Render.scriptDocument, hS.evaluator, hS.dialect, h.agree]
    exact hS.included h (fun _ ht => h.table ht) ih D.throughout_true

theorem document (limit : Nat) (D : Document) (inclusion : Bool) :
    R .settled .settled Unit fun x => document (S x) limit D inclusion :=
  hS.documentWithin h (fun _ ht => h.table ht) (hS.scriptDocuments h hp limit) D.throughout_true inclusion

end InSettings

end XamlDoc
