import XamlDoc.Proofs.Html.Closed
import XamlDoc.Proofs.Render.Traversal

/-!
# Closed properties of documents

A property of renderings that does not speak of keys is closed if it is compositional, holds of the
steps of a traversal that write nothing, and is kept when a node is offered to a handler. A closed
property holds of the rendering of every document.
-/

namespace XamlDoc

open Markup (Writing)
open Rendering Layout Render

variable {P : (α : Type) → Rendering α → Prop} {Q : (α : Type) → Html.Pass α → Prop}

/-- Handlers as they are offered a node of a document. -/
inductive Extensions.Offers (x : Extensions) : (HandlerContext → Writing Handled) → Prop where
  | code {key : String} {h : CodeHandler} (b : CodeBlock) : (key, h) ∈ x.code → Offers x (h b)
  | media {key : String} {h : MediaHandler} (item : MediaItem) :
    (key, h) ∈ x.media → Offers x (h item)

/-- The property `P` of renderings is closed, with `Q` as what it asks of passes. -/
structure Closed (setting : Setting) (P : (α : Type) → Rendering α → Prop)
    (Q : (α : Type) → Html.Pass α → Prop) : Prop
    extends Compositional setting.dialect (fun _ => ([] : List String)) fun α m _ => P α m where
  passes : Html.Closed setting.extensions.evaluator? Q
  visit {m : Rendering Unit} : P Unit m → P Unit (visit m)
  cancelIf {evaluate : Evaluator} (expression : String) :
    setting.extensions.evaluator? = some evaluate → P Unit (cancelIf (evaluate expression).cancels)
  tooDeep : P Unit (throw .tooDeep)
  ofPass {α : Type} {m : Html.Pass α} : Q α m → P α (ofPass m)
  askNumbering {f : Numbering → Rendering Unit} :
    (∀ n, P Unit (f n)) → P Unit (get >>= fun p => f p.traversal.numbering)
  setNumbering (n : Numbering) :
    P Unit (modify fun p => { p with traversal := { p.traversal with numbering := n } })
  offered {handler : HandlerContext → Writing Handled} {s : Scope} {alignment : Alignment}
    {fallback : List String → Rendering Unit} :
    setting.extensions.Offers handler → (∀ messages, P Unit (fallback messages)) →
      P Unit (Render.offered handler s alignment fallback)

/-- What the rendering of a node takes from its scope has the property. -/
structure Scope.Has (s : Scope) (P : (α : Type) → Rendering α → Prop)
    (Q : (α : Type) → Html.Pass α → Prop) : Prop where
  inPlace {key : String} {content : Style → Rendering Unit} :
    s.inPlace key = some content → ∀ st, P Unit (content st)
  detail {m : Rendering Unit} : s.detail? = some m → P Unit m
  nested (d : Document) : P Unit (s.nested d)
  html : s.html.Has s.setting.extensions.evaluator? Q

/-! ### Extensions -/

theorem lookup_map {α β : Type} (f : α → β) (key : String) (l : List (String × α)) :
    (l.map fun e => (e.1, f e.2)).lookup key = (l.lookup key).map f := by
  induction l with
  | nil => rfl
  | cons e r ih =>
    rw [List.map_cons, List.lookup_cons, List.lookup_cons, ih]
    split <;> rfl

/-- Other handlers for the same media. -/
def Extensions.mapMedia (x : Extensions) (f : MediaHandler → MediaHandler) : Extensions :=
  { x with media := x.media.map fun e => (e.1, f e.2) }

theorem Extensions.mediaHandler?_mapMedia (x : Extensions) (f : MediaHandler → MediaHandler) (type : String) :
    (x.mapMedia f).mediaHandler? type = (x.mediaHandler? type).map f := by
  have hl (key : String) : (x.mapMedia f).media.lookup key = (x.media.lookup key).map f := lookup_map f key _
  simp only [mediaHandler?, hl]
  cases x.media.lookup type.toLower with
  | some h => rfl
  | none => cases majorType? type.toLower <;> rfl

section

variable {x : Extensions}

theorem mem_of_lookup_eq_some {α : Type} {key : String} {a : α} {l : List (String × α)}
    (h : l.lookup key = some a) : ∃ k, (k, a) ∈ l := by
  induction l with
  | nil => cases h
  | cons e r ih =>
    rw [List.lookup_cons] at h
    split at h
    · cases h
      exact ⟨e.1, List.mem_cons_self ..⟩
    · obtain ⟨k, hk⟩ := ih h
      exact ⟨k, List.mem_cons_of_mem e hk⟩

theorem offers_codeHandler {language? : Option String} {handler : CodeHandler}
    (h : language?.bind x.codeHandler? = some handler) (b : CodeBlock) : x.Offers (handler b) := by
  obtain ⟨language, -, h⟩ := Option.bind_eq_some_iff.1 h
  obtain ⟨key, hk⟩ := mem_of_lookup_eq_some h
  exact .code b hk

theorem mem_of_mediaHandler? {type? : Option String} {handler : MediaHandler}
    (h : type?.bind x.mediaHandler? = some handler) : ∃ key, (key, handler) ∈ x.media := by
  obtain ⟨type, -, h⟩ := Option.bind_eq_some_iff.1 h
  simp only [Extensions.mediaHandler?] at h
  split at h
  · rename_i hl
    cases h
    exact mem_of_lookup_eq_some hl
  · obtain ⟨major, -, hl⟩ := Option.bind_eq_some_iff.1 h
    exact mem_of_lookup_eq_some hl

theorem offers_mediaHandler {type? : Option String} {handler : MediaHandler}
    (h : type?.bind x.mediaHandler? = some handler) (item : MediaItem) : x.Offers (handler item) := by
  obtain ⟨key, hk⟩ := mem_of_mediaHandler? h
  exact .media item hk

end

/-! ### Scopes -/

theorem Render.expandingScope_setting [Memory] (s : Scope) (levels : Nat) (expanding : List String) :
    (expandingScope s levels expanding).setting = s.setting := by
  cases levels <;> rfl

theorem Render.expandingScope_document [Memory] (s : Scope) (levels : Nat) (expanding : List String) :
    (expandingScope s levels expanding).document = s.document := by
  cases levels <;> rfl

theorem Render.expandingScope_html [Memory] (s : Scope) (levels : Nat) (expanding : List String) :
    (expandingScope s levels expanding).html = s.html.expanding levels expanding := by
  cases levels <;> rfl

namespace Closed

section

variable {s : Scope} (h : Closed s.setting P Q)
include h

theorem bind {α β : Type} {m : Rendering α} {f : α → Rendering β} (hm : P α m)
    (hf : ∀ a, P β (f a)) : P β (m >>= f) := h.andThen (k := []) (l := []) hm hf

theorem seq {m n : Rendering Unit} (hm : P Unit m) (hn : P Unit n) : P Unit (do m; n) :=
  h.bind hm fun _ => hn

theorem inOrder {ms : List (Rendering Unit)} (hm : ∀ m ∈ ms, P Unit m) : P Unit (inOrder ms) := by
  induction ms with
  | nil => exact h.done ()
  | cons m r ih =>
    exact h.seq (hm m (List.mem_cons_self ..)) (ih fun n hn => hm n (List.mem_cons_of_mem m hn))

theorem media (st : Style) {alternative : Rendering Unit}
    (ha : P Unit alternative) (items : List MediaItem) : P Unit (media s st alternative items) := by
  induction items with
  | nil => exact ha
  | cons item r ih =>
    rw [Render.media]
    split
    · exact ih
    · rename_i handler hh
      exact h.seq h.flush (h.offered (offers_mediaHandler hh item) fun _ => ih)

theorem code (st : Style) (b : CodeBlock) : P Unit (code s st b) := by
  have hp : P Unit (plainCode s st b) := h.codeRows _ _
  rw [Render.code]
  split
  · exact hp
  · rename_i handler hh
    refine h.offered (offers_codeHandler hh b) fun messages => h.seq (h.inOrder fun m hm => ?_) hp
    obtain ⟨message, -, rfl⟩ := List.mem_map.1 hm
    exact h.errorBlock _ _

/-! ### Scripts and references -/

theorem script (hs : s.Has P Q) (st : Style) (expression : String) (alone : Bool) :
    P Unit (script s st expression alone) :=
  h.toCompositional.script hs.nested (fun _ expression he => h.cancelIf expression he) st expression alone

theorem footnoteReference (hs : s.Has P Q) (st : Style) (key : String)
    (autoExpand : Bool) : P Unit (footnoteReference s st key autoExpand) := by
  rw [Render.footnoteReference]
  split
  · exact h.done ()
  · split
    · rename_i content hc
      cases autoExpand with
      | true => exact hs.inPlace hc st
      | false => cases hc
    · exact h.bind (h.ofPass (h.passes.number key)) fun _ => h.text _ _

theorem details (hs : s.Has P Q) (st : Style) : P Unit (details s st) := by
  rw [Render.details]
  split
  · rename_i detail hd
    exact h.seq h.flush (hs.detail hd)
  · exact Walked.metaText h.toCompositional _ _

/-! ### Nodes -/

theorem traversed (hs : s.Has P Q) :
    Traversed (fun α m _ => P α m) s (fun _ => false) fun _ => [] where
  visit := h.visit
  reference st key autoExpand := h.footnoteReference hs st key autoExpand
  media st items ha := h.media st ha items
  code := h.code
  script := h.script hs
  details := h.details hs
  html l := h.ofPass (h.passes.nodes hs.html l)

theorem nodes (hs : s.Has P Q) (l : List Node) (st : Style) : P Unit (nodes s l st) :=
  Traversed.all h.toCompositional (h.traversed hs) l st

/-! ### Documents -/

theorem expandingScope (hs : s.Has P Q) (levels : Nat) (expanding : List String) :
    (expandingScope s levels expanding).Has P Q := by
  induction levels generalizing expanding with
  | zero => exact ⟨(fun hk => by cases hk), hs.detail, hs.nested, h.passes.expanding hs.html _ _⟩
  | succ levels ih =>
    refine ⟨fun {key} {content} hk st => ?_, hs.detail, hs.nested, h.passes.expanding hs.html _ _⟩
    simp only [Render.expandingScope] at hk
    split at hk
    · cases hk
    · obtain ⟨f, -, rfl⟩ := Option.map_eq_some_iff.1 hk
      have hl : Closed (Render.expandingScope s levels (key :: expanding)).setting P Q :=
        (expandingScope_setting ..).symm ▸ h
      exact Traversed.footnoteContent hl.toCompositional (hl.traversed (ih _)) f.content st

theorem rowContent (hs : s.Has P Q) (key : String) : P Unit (rowContent s key) := by
  rw [Render.rowContent]
  split
  · exact h.nodes hs _ _
  · exact h.done ()

theorem footnoteSection (hs : s.Has P Q) : P Unit (footnoteSection s) := by
  refine h.askNumbering (f := footnoteRows s) fun numbering => ?_
  rw [footnoteRows]
  split
  · exact h.done ()
  · exact h.seq (h.setNumbering _) (h.footnotes (g := fun _ => []) fun key _ => h.rowContent hs key)

theorem ownNumbers {m : Rendering Unit} (hm : P Unit m) : P Unit (ownNumbers m) :=
  h.askNumbering fun outer => h.seq (h.setNumbering _) (h.seq hm (h.setNumbering outer))

theorem body (hs : s.Has P Q) : P Unit (body s) :=
  h.ownNumbers (h.seq (h.flushed (k := []) (h.nodes hs _ _)) (h.footnoteSection hs))

end

variable {setting : Setting} (h : Closed setting P Q)
include h

theorem documentBody {nested : Document → Rendering Unit} {nestedHtml : Document → Html.Part}
    (hn : ∀ d, P Unit (nested d)) (hh : ∀ d, Q _ (nestedHtml d)) (d : Document)
    {detail? : Option (Rendering Unit)} (hd : ∀ m, detail? = some m → P Unit m) :
    P Unit (Render.body (documentScope setting nested nestedHtml d detail?)) := by
  have hs : (documentScope setting nested nestedHtml d detail?).Has P Q := by
    refine expandingScope h ⟨?_, hd _, hn, rfl, ?_, hh⟩ _ _
    · exact fun hk => by cases hk
    · exact fun hk => by cases hk
  have hl : Closed (documentScope setting nested nestedHtml d detail?).setting P Q :=
    (expandingScope_setting ..).symm ▸ h
  exact hl.body hs

theorem included {nested : Document → Rendering Unit} {nestedHtml : Document → Html.Part}
    (hn : ∀ d, P Unit (nested d)) (hh : ∀ d, Q _ (nestedHtml d)) (d : Document) :
    P Unit (included setting nested nestedHtml d) := by
  obtain ⟨nodes, footnotes, references, detail?, metadata⟩ := d
  cases detail? with
  | none => exact h.documentBody hn hh _ fun m hm => by cases hm
  | some detail =>
    refine h.documentBody hn hh _ fun m hm => ?_
    cases hm
    exact included hn hh detail

theorem scriptDocument (limit : Nat) (d : Document) : P Unit (scriptDocument setting limit d) := by
  induction limit generalizing d with
  | zero => exact h.tooDeep
  | succ limit ih => exact h.included ih (h.passes.nestedDocument _ _) d

/-- A closed property holds of the rendering of every document. -/
theorem document (limit : Nat) (d : Document) (inclusion : Bool) :
    P Unit (document setting limit d inclusion) := by
  have hi : P Unit (Render.included setting (Render.scriptDocument setting limit) (Html.nestedDocument
      setting.extensions.evaluator? setting.dialect.profile limit) d) :=
    h.included (h.scriptDocument limit) (h.passes.nestedDocument _ _) d
  rw [Render.document]
  split
  · exact hi
  · exact h.element (k := []) (root_distinct _) (root_name _) hi

end Closed

end XamlDoc
