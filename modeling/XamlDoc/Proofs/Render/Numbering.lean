import XamlDoc.Proofs.Footnote.Printing
import XamlDoc.Proofs.Html.Numbering
import XamlDoc.Proofs.Render.Closed
import XamlDoc.Proofs.Render.Traversal

/-!
# Numbers given by renderings

A rendering that ends well has numbered the footnotes whose numbers it printed, in order, whatever was
numbered before. Without scripts these are told by the nodes: exactly, if handlers decide by the item
alone, and at most, whatever handlers do.
-/

namespace XamlDoc

open Markup

variable {σ : Type} [Writer σ] {α β : Type}

/-! ### Handlers that decide by the item -/

/-- Whether the handler renders its node is decided beforehand. -/
def Decided (σ : Type) [Writer σ] (handler : HandlerContext → Writing Handled) (renders : Bool) : Prop :=
  ∀ (context : HandlerContext) (w : σ), match ((handler context).run w).1.result with
    | .ok .rendered => renders = true
    | .error (.write _) => True
    | _ => renders = false

/-- Just the items that `takes` says are rendered by handlers. -/
def Extensions.Decides (x : Extensions) (σ : Type) [Writer σ] (takes : MediaItem → Bool) : Prop :=
  ∀ item : MediaItem, match item.type?.bind x.mediaHandler? with
    | .none => takes item = false
    | .some handler => Decided σ (handler item) (takes item)

theorem decides_of_media_eq_nil {x : Extensions} (hx : x.media = []) (σ : Type) [Writer σ] :
    x.Decides σ fun _ => false := by
  intro item
  have hn : item.type?.bind x.mediaHandler? = none := by
    have hm (type : String) : x.mediaHandler? type = none := by
      simp [Extensions.mediaHandler?, hx]
    cases item.type? <;> simp [hm]
  rw [hn]

/-! ### What is compared -/

/-- How the keys numbered by a rendering are compared with those told by the nodes. -/
structure Comparison where
  holds : List String → List String → Prop
  refl (k : List String) : holds k k
  append {a b c d : List String} : holds a b → holds c d → holds (a ++ c) (b ++ d)

def Comparison.exactly : Comparison where
  holds := Eq
  refl _ := rfl
  append hab hcd := by rw [hab, hcd]

def Comparison.atMost : Comparison where
  holds a b := a ⊆ b
  refl _ := List.Subset.refl _
  append hab hcd := List.append_subset.2
    ⟨List.Subset.trans hab (List.subset_append_left _ _),
      List.Subset.trans hcd (List.subset_append_right _ _)⟩

/-- What is known of the handlers of media is enough for the comparison. -/
def Comparison.Fits (R : Comparison) (x : Extensions) (σ : Type) [Writer σ] (takes : MediaItem → Bool) :
    Prop :=
  x.Decides σ takes ∨ (∀ item, takes item = false) ∧ ∀ k, R.holds [] k

/-- When the rendering ends well, it has numbered keys that compare so to the given ones, in order. -/
def Adds (R : Comparison) (σ : Type) [Writer σ] (α : Type) (m : Rendering α) (keys : List String) :
    Prop :=
  ∀ (p : Progress) (w : σ) (a : α) (q : Progress), (Writing.run (m p) w).1 = .ok (a, q) →
    ∃ l, R.holds l keys ∧ q.traversal.numbering = p.traversal.numbering.addAll l

variable {R : Comparison}

namespace Adds

/-! ### Pieces -/

theorem done (a : α) : Adds R σ α (pure a) [] := by
  intro p w b q h
  cases h
  exact ⟨[], R.refl [], rfl⟩

theorem bind {m : Rendering α} {f : α → Rendering β} {k l : List String} (hm : Adds R σ α m k)
    (hf : ∀ a, Adds R σ β (f a) l) : Adds R σ β (m >>= f) (k ++ l) := by
  intro p w b q h
  rw [Rendering.bind_apply, Writing.run_bind] at h
  cases hr : (Writing.run (m p) w).1 with
  | ok r =>
    rw [hr] at h
    obtain ⟨i, hi, hni⟩ := hm p w r.1 r.2 hr
    obtain ⟨j, hj, hnj⟩ := hf r.1 r.2 _ b q h
    exact ⟨i ++ j, R.append hi hj, by rw [hnj, hni, Numbering.addAll_append]⟩
  | error e =>
    rw [hr] at h
    cases h

theorem ofWriting (m : Writing (Except WriteError α)) : Adds R σ α (Rendering.ofWriting m) [] := by
  intro p w b q h
  rw [Rendering.ofWriting, Writing.run_bind] at h
  cases hr : (m.run w).1 with
  | ok a =>
    rw [hr] at h
    cases h
    exact ⟨[], R.refl [], rfl⟩
  | error e =>
    rw [hr] at h
    cases h

theorem ofQuiet (m : Writing α) : Adds R σ α (Rendering.ofQuiet m) [] := by
  intro p w b q h
  rw [Rendering.ofQuiet, Writing.run_bind] at h
  cases h
  exact ⟨[], R.refl [], rfl⟩

theorem between {m n : Rendering Unit} {content : Rendering Unit} {k : List String}
    (hm : Adds R σ Unit m []) (hc : Adds R σ Unit content k) (hn : Adds R σ Unit n []) :
    Adds R σ Unit (do m; content; n) k := by
  have h : Adds R σ Unit (do m; content; n) ([] ++ (k ++ [])) := hm.bind fun _ => hc.bind fun _ => hn
  rwa [List.append_nil, List.nil_append] at h

theorem append (r : Run) (alignment : Alignment) :
    Adds R σ Unit (Rendering.appendRun r alignment) [] := by
  intro p w b q h
  cases h
  exact ⟨[], R.refl [], rfl⟩

theorem text (t : String) (st : Style) : Adds R σ Unit (Rendering.text t st) [] := by
  rw [Rendering.text]
  split
  · exact done ()
  · exact append _ _

theorem bracketed (d : Dialect) : Bracketed d (fun _ => []) (Adds R σ) where
  done := done
  andThen := bind
  append := append
  comment t := by
    intro p w b q h
    cases h
    exact ⟨[], R.refl [], rfl⟩
  flush := fun p => ofWriting (Writing.calls (p.runs.calls _)) { p with runs := ∅ }
  whole _ _ := ofWriting _
  element _ _ hc := (ofWriting _).between hc (ofWriting _)
  enclosed _ _ hc := (ofQuiet _).bind fun _ => (ofWriting _).between hc (ofWriting _)

theorem compositional (d : Dialect) : Compositional d (fun _ => []) (Adds R σ) := (bracketed d).compositional

theorem visit {m : Rendering Unit} {k : List String} (hm : Adds R σ Unit m k) :
    Adds R σ Unit (Rendering.visit m) k := by
  intro p w b q h
  rw [Render.visit_apply] at h
  split at h
  · cases h
  · rw [← p.traversal.numbering_tick]
    exact hm _ w b q h

theorem ofPass {m : Html.Pass α} {k : List String} (hm : Html.Adds α m k) :
    Adds R σ α (Rendering.ofPass m) k := by
  intro p w b q h
  rw [Rendering.ofPass] at h
  split at h
  · rename_i ht
    cases h
    exact ⟨k, R.refl k, hm _ _ _ ht⟩
  · cases h

/-! ### Handlers -/

theorem offered {handler : HandlerContext → Writing Handled} {s : Scope} {alignment : Alignment}
    {fallback : List String → Rendering Unit} {k l : List String}
    (hd : ∀ (context : HandlerContext) (w : σ), match ((handler context).run w).1.result with
      | .ok .rendered => R.holds [] l
      | .error (.write _) => True
      | _ => l = k)
    (hf : ∀ messages, Adds R σ Unit (fallback messages) k) :
    Adds R σ Unit (Render.offered handler s alignment fallback) l := by
  intro p w b q h
  have hw := hd ⟨alignment, s.dialect⟩ w
  rw [Render.offered_apply, Writing.run, Writing.run_bind] at h
  generalize (handler ⟨alignment, s.dialect⟩).run w = r at h hw
  rcases r with ⟨⟨result, cancels⟩, w'⟩
  let p' : Progress := { p with traversal := p.traversal.cancelIf cancels }
  show ∃ i, R.holds i l ∧ q.traversal.numbering = p'.traversal.numbering.addAll i
  rcases result with e | outcome
  · cases e with
    | write e => cases h
    | failed message =>
      rw [Writing.run_bind] at h
      rw [show l = k from hw]
      exact hf _ p' _ b q h
    | aggregate messages =>
      rw [Writing.run_bind] at h
      rw [show l = k from hw]
      exact hf _ p' _ b q h
  · cases outcome with
    | rendered =>
      rw [Writing.run_bind] at h
      cases hr : ((Writing.closeTo (Writer.depth w)).run w').1 with
      | ok a =>
        rw [hr] at h
        cases h
        exact ⟨[], hw, rfl⟩
      | error e =>
        rw [hr] at h
        cases h
    | declined =>
      rw [Writing.run_bind] at h
      rw [show l = k from hw]
      exact hf _ p' _ b q h

theorem media {s : Scope} {takes : MediaItem → Bool} (hx : R.Fits s.extensions σ takes) (st : Style)
    {alternative : Rendering Unit} {k : List String} (ha : Adds R σ Unit alternative k)
    (items : List MediaItem) :
    Adds R σ Unit (Render.media s st alternative items) (if items.any takes then [] else k) := by
  induction items with
  | nil => exact ha
  | cons item r ih =>
    rw [Render.media, List.any_cons]
    rcases hx with hd | ⟨hn, hr⟩
    · have hi := hd item
      split
      · rename_i hh
        rw [hh] at hi
        rw [show takes item = false from hi, Bool.false_or]
        exact ih
      · rename_i handler hh
        rw [hh] at hi
        refine (compositional s.dialect).before (compositional s.dialect).flush
          (offered (fun context w => ?_) fun _ => ih)
        have hw := hi context w
        split at hw
        · rw [hw]
          exact R.refl []
        · trivial
        · simp [hw]
    · rw [hn item, Bool.false_or]
      split
      · exact ih
      · refine (compositional s.dialect).before (compositional s.dialect).flush
          (offered (fun context w => ?_) fun _ => ih)
        split
        · exact hr _
        · trivial
        · rfl

theorem code (s : Scope) (st : Style) (b : CodeBlock) : Adds R σ Unit (Render.code s st b) [] := by
  have hp : Adds R σ Unit (Render.plainCode s st b) [] := (compositional s.dialect).codeRows _ _
  rw [Render.code]
  split
  · exact hp
  · refine offered (k := []) (fun _ _ => ?_) fun messages => ?_
    · split
      · exact R.refl []
      · trivial
      · rfl
    · refine (compositional s.dialect).before ((compositional s.dialect).inOrder_nil fun message _ => ?_) hp
      exact (compositional s.dialect).errorBlock _ message

/-! ### Scopes -/

theorem number (st : Style) (key : String) : Adds R σ Unit (do
    let number ← Rendering.ofPass (modifyGet fun t : Traversal => t.reference key)
    Rendering.text (toString number) st) [key] :=
  (ofPass (Html.adds_number key)).bind (l := []) fun _ => text _ _

/-- A document inside another leaves the numbers of that alone. -/
theorem ownNumbers (m : Rendering Unit) : Adds R σ Unit (Render.ownNumbers m) [] := by
  intro p w b q h
  have he : Render.ownNumbers m p = (m >>= fun _ => modify fun q : Progress =>
      { q with traversal := { q.traversal with numbering := p.traversal.numbering } } : Rendering Unit)
      { p with traversal := { p.traversal with numbering := ∅ } } := rfl
  rw [he, Rendering.bind_apply, Writing.run_bind] at h
  split at h <;> cases h
  exact ⟨[], R.refl [], rfl⟩

end Adds

namespace Render

theorem exists_run {τ : Type} {r : Except RenderError (Unit × Progress) × τ} (h : r.1.isOk) :
    ∃ p w, r = (.ok ((), p), w) := by
  rcases r with ⟨e | ⟨⟨⟩, p⟩, w⟩
  · cases h
  · exact ⟨p, w, rfl⟩

variable (s : Scope) (levels : Nat) (expanding : List String)

theorem expandingScope_sight (takes : MediaItem → Bool) :
    (expandingScope s levels expanding).sight takes = s.sight takes := by
  cases levels <;> rfl

theorem expandingScope_media (st : Style) (alternative : Rendering Unit) (items : List MediaItem) :
    media (expandingScope s levels expanding) st alternative items = media s st alternative items := by
  induction items with
  | nil => rfl
  | cons item r ih =>
    rw [media, ih]
    cases levels <;> rfl

end Render

/-- A scope in which scripts and the detail document give no numbers. -/
structure Scope.Silent (R : Comparison) (s : Scope) (σ : Type) [Writer σ] : Prop where
  script (st : Style) (expression : String) (alone : Bool) :
    Adds R σ Unit (Render.script s st expression alone) []
  detail {m : Rendering Unit} : s.detail? = some m → Adds R σ Unit m []
  htmlScript (expression : String) : Html.Adds _ (Html.script s.html expression) []
  htmlDocument : s.html.document = s.document

theorem offersNode_of_fits {s : Scope} {takes : MediaItem → Bool} (hx : R.Fits s.extensions σ takes) (n : Node) :
    s.OffersNode (Adds R σ) takes n := fun items _ _ _ st ha => Adds.media hx st ha items

theorem offersNode_expandingScope {s : Scope} {takes : MediaItem → Bool} {n : Node}
    (hn : s.OffersNode (Adds R σ) takes n) (levels : Nat) (expanding : List String) :
    (Render.expandingScope s levels expanding).OffersNode (Adds R σ) takes n := by
  have hi : (Render.expandingScope s levels expanding).items? n = s.items? n := by
    unfold Scope.items?
    rw [Render.expandingScope_document]
  intro items hm alternative k st ha
  rw [Render.expandingScope_media, Render.expandingScope_sight]
  exact hn items (hi ▸ hm) st ha

namespace Scope.Silent

variable {s : Scope} {takes : MediaItem → Bool} (hs : s.Silent R σ)
include hs

omit takes in
theorem sight_html (takes : MediaItem → Bool) : s.html.sight takes = s.sight takes := by
  rw [Html.Scope.sight, hs.htmlDocument, Scope.sight]

theorem walked {keys : ShownLink → List String}
    (hr : ∀ st key autoExpand,
      Adds R σ Unit (Render.footnoteReference s st key autoExpand) (keys ⟨.blocks, key, autoExpand⟩))
    (hh : ∀ key autoExpand,
      Html.Adds _ (Html.footnoteReference s.html key autoExpand) (keys ⟨.html, key, autoExpand⟩)) :
    Walked (Adds R σ) s takes keys where
  visit := Adds.visit
  reference := hr
  code := Adds.code s
  script := hs.script
  details st := by
    rw [Render.details]
    split
    · rename_i m hm
      exact (Adds.compositional s.dialect).before (Adds.compositional s.dialect).flush (hs.detail hm)
    · exact Walked.metaText (Adds.compositional s.dialect) st "Details"
  html l := by
    rw [← hs.sight_html]
    exact Adds.ofPass (Html.Traversed.all Html.Adds.compositional takes (Html.traversed_adds hs.htmlScript hh) l)

theorem expanding (levels : Nat) (expanding : List String) :
    (Render.expandingScope s levels expanding).Silent R σ := by
  have hh : (Render.expandingScope s levels expanding).html.document = s.document := by
    rw [Render.expandingScope_html, Html.expanding_document, hs.htmlDocument]
  cases levels with
  | zero => exact ⟨hs.script, hs.detail, hs.htmlScript, hh⟩
  | succ levels => exact ⟨hs.script, hs.detail, hs.htmlScript, hh⟩

abbrev printed (s : Scope) (takes : MediaItem → Bool) : Nat → List String → ShownLink → List String :=
  s.document.footnotes.printed (s.sight takes)

theorem htmlReference (levels : Nat) (expanding : List String) (key : String) (autoExpand : Bool) :
    Html.Adds _
      (Html.footnoteReference (Render.expandingScope s levels expanding).html key autoExpand)
      (printed s takes levels expanding ⟨.html, key, autoExpand⟩) := by
  rw [Render.expandingScope_html, printed, ← hs.htmlDocument, ← hs.sight_html]
  exact Html.adds_reference takes hs.htmlScript levels expanding key autoExpand

variable (hf : ∀ f ∈ s.document.footnotes.entries, ∀ m ∈ Node.walkAll f.content, s.OffersNode (Adds R σ) takes m)
include hf

theorem reference (levels : Nat) (expanding : List String) (st : Style) (key : String)
    (autoExpand : Bool) :
    Adds R σ Unit (Render.footnoteReference (Render.expandingScope s levels expanding) st key autoExpand)
      (printed s takes levels expanding ⟨.blocks, key, autoExpand⟩) := by
  induction levels generalizing expanding st key autoExpand with
  | zero =>
    rw [Render.footnoteReference, Render.expandingScope_document, printed, Footnotes.printed]
    cases s.document.footnotes.get? key with
    | none => exact Adds.done ()
    | some f =>
      have hi : (if autoExpand then (Render.expandingScope s 0 expanding).inPlace key else none) =
        none := by cases autoExpand <;> rfl
      simp only [hi]
      exact Adds.number _ key
  | succ levels ih =>
    rw [Render.footnoteReference, Render.expandingScope_document, printed, Footnotes.printed]
    cases hget : s.document.footnotes.get? key with
    | none => exact Adds.done ()
    | some f =>
      have hi : (if autoExpand then (Render.expandingScope s (levels + 1) expanding).inPlace key
            else none) =
          if autoExpand && !expanding.contains key then
            some (Render.footnoteContent (Render.expandingScope s levels (key :: expanding)) f.content)
          else none := by
        simp only [Render.expandingScope, hget]
        cases autoExpand <;> cases expanding.contains key <;> rfl
      by_cases hx : (autoExpand && !expanding.contains key) = true
      · have hc : s.document.footnotes.shown (s.sight takes) .blocks key =
            (s.sight takes).shownAll .blocks f.content := by rw [Footnotes.shown, hget]
        rw [if_pos hx] at hi
        simp only [hi, if_pos hx]
        rw [hc]
        have hw : Walked (Adds R σ) (Render.expandingScope s levels (key :: expanding)) takes _ :=
          (hs.expanding levels (key :: expanding)).walked (ih (key :: expanding))
            (hs.htmlReference levels (key :: expanding))
        have hm := hf f (Footnotes.mem_of_get? hget)
        have hc := Walked.footnoteContent (Adds.compositional _) hw
          (fun m hk => offersNode_expandingScope (hm m hk) levels (key :: expanding)) st
        rwa [Render.expandingScope_sight] at hc
      · rw [if_neg hx] at hi
        simp only [hi, if_neg hx]
        exact Adds.number _ key

/-- Nodes number the keys printed for the references that they show. -/
theorem nodes (levels : Nat) (expanding : List String) {l : List Node}
    (hl : ∀ m ∈ Node.walkAll l, s.OffersNode (Adds R σ) takes m) (st : Style) :
    Adds R σ Unit (Render.nodes (Render.expandingScope s levels expanding) l st)
      (((s.sight takes).shownAll .blocks l).flatMap (printed s takes levels expanding)) := by
  have hw : Walked (Adds R σ) (Render.expandingScope s levels expanding) takes _ :=
    (hs.expanding levels expanding).walked (hs.reference hf levels expanding) (hs.htmlReference levels expanding)
  have hk := Walked.all (Adds.compositional _) hw
    (fun m hm => offersNode_expandingScope (hl m hm) levels expanding) st
  rwa [Render.expandingScope_sight] at hk

end Scope.Silent

/-! ### Documents -/

namespace Render

variable (setting : Setting) (nested : Document → Rendering Unit) (nestedHtml : Document → Html.Part)

/-- The scope in which the nodes and footnotes of a document are rendered, given the rendering of
documents that scripts return. -/
def scopeOf (d : Document) : Scope :=
  documentScope setting nested nestedHtml d (d.detail.map (included setting nested nestedHtml))

theorem included_eq (d : Document) :
    included setting nested nestedHtml d = body (scopeOf setting nested nestedHtml d) := by
  obtain ⟨nodes, footnotes, references, detail?, metadata⟩ := d
  cases detail? <;> rfl

variable {setting nested nestedHtml}

theorem scopeOf_nodes {takes : MediaItem → Bool} (he : setting.extensions.evaluator? = none)
    (hd : R.Fits setting.extensions σ takes) (d : Document) (l : List Node) (st : Style) :
    Adds R σ Unit (nodes (scopeOf setting nested nestedHtml d) l st)
      (d.footnotes.printedAll ⟨takes, d.references⟩
        ((Sight.mk takes d.references).shownAll .blocks l)) := by
  let html : Html.Scope :=
    ⟨setting.extensions.evaluator?, setting.dialect.profile, d, fun _ => none, nestedHtml⟩
  let s : Scope := ⟨setting, d, fun _ => none, d.detail.map (included setting nested nestedHtml),
    nested, html⟩
  have hs : s.Silent R σ := by
    refine ⟨fun st expression alone => ?_, fun {m} hm => ?_, fun expression => ?_, rfl⟩
    · rw [script, show s.extensions.evaluator? = none from he]
      exact Adds.text _ _
    · obtain ⟨detail, -, rfl⟩ := Option.map_eq_some_iff.1 hm
      rw [included_eq]
      exact Adds.ownNumbers _
    · rw [Html.script, show s.html.evaluator? = none from he]
      exact Html.Adds.done _
  exact hs.nodes (fun _ _ m _ => offersNode_of_fits hd m) _ _ (fun m _ => offersNode_of_fits hd m) st

end Render

end XamlDoc
