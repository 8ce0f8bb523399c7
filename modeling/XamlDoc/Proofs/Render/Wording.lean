import XamlDoc.Proofs.Document.Margins
import XamlDoc.Proofs.Html.Reader
import XamlDoc.Proofs.Render.Agreement
import XamlDoc.Proofs.Render.Spans

/-!
# The words of spans

Spans of text say the same whether they wait as runs for the block around them or are HTML in a label: a reader of
the HTML sees the texts of the runs. The two ways of going through a span agree on what they fall back to where an
entity is unknown, a number is no character, a label is not resolved or there is nobody to evaluate a script, and
they end alike if the token fires.
-/

namespace XamlDoc

open Markup
open Html (AllEscaped Fragment readText readText_markupAll shownAll shownAll_append)

/-! ### Spans of text -/

/-- The node shows text of the document as it is written there: it is neither raised nor lowered, nor what media,
footnotes or details make of it. An expression is such text if there is nobody to evaluate it. A nested
block without children is no span. -/
def Node.isWording (x : Extensions) : Node → Bool
  | .text _ | .hashTag _ | .strong _ | .emphasize _ | .delete _ | .insert _ | .underline _ | .inlineCode _
  | .link _ _ | .linkReference _ _ | .autoLinkMail _ | .autoLinkUrl _ | .emoji _ | .htmlEntity _
  | .htmlEntityUnicode _ | .lineBreak | .metaReference _ | .abbreviation _ _ | .singleChild _ => true
  | .nestedBlock c => !c.isEmpty
  | .inlineScript _ _ => x.evaluator?.isNone
  | _ => false

/-- Of nodes that flow inline if their children do, all do. -/
theorem Node.isInline_of_walk {Q : Node → Prop}
    (hQ : ∀ n, Q n → (∀ m ∈ n.children, m.isInline = true) → n.isInline = true) {n : Node}
    (h : ∀ m ∈ n.walk, Q m) : n.isInline = true := by
  induction n using Node.induction with
  | step n ih => exact hQ n (h n n.self_mem_walk) fun m hm => ih m hm fun q hq => h q (mem_walk_of_child hm hq)

theorem Node.isInline_of_children {x : Extensions} {n : Node} (hn : n.isWording x = true)
    (hc : ∀ m ∈ n.children, m.isInline = true) : n.isInline = true := by
  cases n with
  | singleChild m => exact hc m (List.mem_singleton_self m)
  | nestedBlock c =>
    have hall : c.all isInline = true := List.all_eq_true.2 hc
    rw [isInline_nestedBlock, hall, Bool.and_true]
    exact hn
  | _ => first | rfl | cases hn

theorem Node.isInline_of_isWording {x : Extensions} {n : Node} (h : ∀ m ∈ n.walk, m.isWording x = true) :
    n.isInline = true := isInline_of_walk (fun _ => isInline_of_children) h

/-- The text of its runs is neither raised nor lowered. -/
structure Style.Level (st : Style) : Prop where
  superscript : st.superscript = false
  subscript : st.subscript = false

/-! ### The same text -/

/-- The runs, one after the other, wait behind those that wait already. -/
def RunBuffer.appendAll (b : RunBuffer) (a : Alignment) (runs : List Run) : RunBuffer :=
  runs.foldl (fun b r => b.append r a) b

theorem RunBuffer.appendAll_append (b : RunBuffer) (a : Alignment) (k l : List Run) :
    b.appendAll a (k ++ l) = (b.appendAll a k).appendAll a l := List.foldl_append

/-- Whatever state the traversal is in, the rendering makes nothing but runs wait, in which there is the text of
the HTML of the pass, and leaves the state as the pass does. It comes to its end if nobody fires the token. -/
structure Says (a : Alignment) (m : Html.Part) (r : Rendering Unit) : Prop where
  rests {t : Traversal} : t.Rests → ∃ fragments, m t = .ok (fragments, t)
  halts {p : Progress} {e : Halt} : m p.traversal = .error e → r p = .done (.error e.error)
  ends {p : Progress} {fragments : List Fragment} {t : Traversal} : m p.traversal = .ok (fragments, t) →
    AllEscaped fragments ∧ ∃ runs : List Run, r p = .done (.ok ((), ⟨t, p.runs.appendAll a runs⟩)) ∧
      String.join (runs.map Run.text) = shownAll fragments

namespace Says

variable {a : Alignment} {m n : Html.Part} {r s : Rendering Unit}

/-- What is there at once. -/
theorem done {fragments : List Fragment} (runs : List Run) (he : AllEscaped fragments)
    (hr : ∀ p, r p = .done (.ok ((), ⟨p.traversal, p.runs.appendAll a runs⟩)))
    (ht : String.join (runs.map Run.text) = shownAll fragments) : Says a (pure fragments) r where
  rests _ := ⟨fragments, rfl⟩
  halts h := by cases h
  ends h := by
    cases h
    exact ⟨he, runs, hr _, ht⟩

theorem nothing : Says a (pure []) (pure ()) := done [] trivial (fun _ => rfl) rfl

theorem text {st : Style} (h : st.Level) {t : String} {f : Fragment} (he : f.Escaped) (ht : f.shown = t) :
    Says st.alignment (pure [f]) (Rendering.text t st) := by
  have hf : shownAll [f] = t := by rw [shownAll, shownAll, ht, String.append_empty]
  rw [Rendering.text]
  split
  · rename_i ht
    exact done [] ⟨he, trivial⟩ (fun _ => rfl) (by rw [hf, ht]; rfl)
  · have hr : (Run.ofStyle t st).text = t := by simp [Run.ofStyle, h.superscript, h.subscript]
    exact done [.ofStyle t st] ⟨he, trivial⟩ (fun _ => rfl) (by simp [hf, hr])

theorem visit (h : Says a m r) : Says a (Html.visit m) (Rendering.visit r) where
  rests {t} ht := by
    rw [Html.visit_apply, ht.not_stops, ht.tick, if_neg Bool.false_ne_true]
    exact h.rests ht
  halts {p e} hm := by
    rw [Html.visit_apply] at hm
    rw [Render.visit_apply]
    split at hm
    · rename_i hs
      cases hm
      exact if_pos hs
    · rename_i hs
      rw [if_neg hs]
      exact h.halts (p := ⟨p.traversal.tick, p.runs⟩) hm
  ends {p fragments t} hm := by
    rw [Html.visit_apply] at hm
    rw [Render.visit_apply]
    split at hm
    · cases hm
    · rename_i hs
      rw [if_neg hs]
      exact h.ends (p := ⟨p.traversal.tick, p.runs⟩) hm

theorem wrapped (h : Says a m r) (tag : Html.Tag) (attributes : Html.Attributes) :
    Says a (Html.wrapped tag attributes m) r where
  rests ht := by
    obtain ⟨fragments, hm⟩ := h.rests ht
    exact ⟨_, by rw [Html.wrapped, Html.bind_apply, hm]; rfl⟩
  halts {p e} hm := by
    rw [Html.wrapped, Html.bind_apply] at hm
    split at hm
    · cases hm
    · rename_i he
      cases hm
      exact h.halts he
  ends {p fragments t} hm := by
    rw [Html.wrapped, Html.bind_apply] at hm
    split at hm
    · rename_i content u hu
      cases hm
      obtain ⟨he, runs, hr, ht⟩ := h.ends hu
      refine ⟨⟨he, trivial⟩, runs, hr, ht.trans ?_⟩
      rw [shownAll, Fragment.shown, shownAll, String.append_empty]
    · cases hm

theorem wrappedText (st : Style) (h : st.Level) (t : String) (tag : Html.Tag) (attributes : Html.Attributes) :
    Says st.alignment (pure [.element tag attributes [.text t]]) (Rendering.text t st) :=
  (text h (f := .text t) trivial rfl).wrapped tag attributes

theorem append (hm : Says a m r) (hn : Says a n s) : Says a (do
      let first ← m
      pure (first ++ (← n))) (do r; s) where
  rests ht := by
    obtain ⟨first, hf⟩ := hm.rests ht
    obtain ⟨second, hs⟩ := hn.rests ht
    refine ⟨first ++ second, ?_⟩
    rw [Html.bind_apply, hf]
    show (n >>= fun second => pure (first ++ second)) _ = _
    rw [Html.bind_apply, hs]
    rfl
  halts {p e} h := by
    rw [Html.bind_apply] at h
    rw [Rendering.bind_apply]
    split at h
    · rename_i first t hf
      obtain ⟨-, runs, hr, -⟩ := hm.ends hf
      rw [Html.bind_apply] at h
      rw [hr]
      split at h
      · cases h
      · rename_i he
        cases h
        exact hn.halts (p := ⟨t, _⟩) he
    · rename_i he
      cases h
      rw [hm.halts he]
      rfl
  ends {p fragments t} h := by
    rw [Html.bind_apply] at h
    split at h
    · rename_i first u hf
      rw [Html.bind_apply] at h
      split at h
      · rename_i second v hs
        cases h
        obtain ⟨hfe, runs, hr, hft⟩ := hm.ends hf
        obtain ⟨hse, runs', hr', hst⟩ := hn.ends (p := ⟨u, p.runs.appendAll a runs⟩) hs
        refine ⟨Html.allEscaped_append hfe hse, runs ++ runs', ?_, ?_⟩
        · rw [Rendering.bind_apply, hr, RunBuffer.appendAll_append]
          exact hr'
        · rw [List.map_append, String.join_append, hft, hst, shownAll_append]
      · cases h
    · cases h

/-! ### Nodes -/

section

variable {s : Scope} (hd : s.html.document = s.document) (hv : s.html.evaluator? = s.extensions.evaluator?)
  {st : Style} (hst : st.Level)
include hst

theorem metaText (hd : s.html.document = s.document) (key : String) :
    Says st.alignment (pure (Html.metaText s.html key)) (Render.metaText s st key) := by
  rw [Html.metaText, Render.metaText, hd]
  cases s.document.metadata.joined? key with
  | none => exact nothing
  | some value => exact text hst trivial rfl

theorem charOfCode (code : UInt32) :
    Says st.alignment (pure ((Html.charOfCode? code).map fun c => Fragment.text c.toString).toList)
      (match Html.charOfCode? code with
        | some c => Rendering.text c.toString st
        | none => pure ()) := by
  cases Html.charOfCode? code with
  | none => exact nothing
  | some c => exact text hst trivial rfl

omit hst in
theorem nodes {l : List Node} (h : ∀ n ∈ l, Says st.alignment (Html.node s.html n) (Render.node s n st)) :
    Says st.alignment (Html.nodes s.html l) (Render.nodes s l st) := by
  induction l with
  | nil => exact nothing
  | cons n r ih =>
    exact (h n (List.mem_cons_self ..)).append (ih fun m hm => h m (List.mem_cons_of_mem n hm))

include hd hv

theorem node {n : Node} (hn : ∀ m ∈ n.walk, m.isWording s.extensions = true) :
    Says st.alignment (Html.node s.html n) (Render.node s n st) := by
  induction n using Node.induction generalizing st with
  | step n ih =>
    have child {st : Style} (hst : st.Level) (m : Node) (hm : m ∈ n.children) :=
      ih m hm hst fun q hq => hn q (Node.mem_walk_of_child hm hq)
    -- marks change no alignment, so what is in a span waits with the alignment of the span
    have all (st' : Style) (hs : st'.Level) (ha : st'.alignment = st.alignment) {l : List Node}
        (hl : ∀ m ∈ l, m ∈ n.children) : Says st.alignment (Html.nodes s.html l) (Render.nodes s l st') :=
      ha ▸ nodes fun m hm => child hs m (hl m hm)
    have hi : n.isInline = true := Node.isInline_of_isWording hn
    have hw : n.isWording s.extensions = true := hn n n.self_mem_walk
    cases n with
    | text t | hashTag t => exact visit (text hst trivial rfl)
    | emoji e => exact visit (text hst trivial rfl)
    | htmlEntity name => exact visit (text hst trivial rfl)
    | lineBreak => exact visit (text hst trivial rfl)
    | strong l => exact visit (wrapped (all { st with bold := true } ⟨hst.1, hst.2⟩ rfl fun _ hm => hm) _ _)
    | emphasize l => exact visit (wrapped (all { st with italic := true } ⟨hst.1, hst.2⟩ rfl fun _ hm => hm) _ _)
    | delete l => exact visit (wrapped (all { st with strikeThrough := true } ⟨hst.1, hst.2⟩ rfl fun _ hm => hm) _ _)
    | insert l | underline l =>
      exact visit (wrapped (all { st with underline := true } ⟨hst.1, hst.2⟩ rfl fun _ hm => hm) _ _)
    | link url l =>
      exact visit (wrapped (all { st with hyperlink := some url } ⟨hst.1, hst.2⟩ rfl fun _ hm => hm) _ _)
    | abbreviation _ l => exact visit (wrapped (all st hst rfl fun _ hm => hm) _ _)
    | inlineCode t => exact visit (wrappedText { st with code := true } ⟨hst.1, hst.2⟩ t .code [])
    | autoLinkMail t =>
      let target := some ("mailto:" ++ t)
      exact visit (wrappedText { st with hyperlink := target } ⟨hst.1, hst.2⟩ t .a _)
    | autoLinkUrl t => exact visit (wrappedText { st with hyperlink := some t } ⟨hst.1, hst.2⟩ t .a _)
    | linkReference label l =>
      rw [Html.node, Render.node, hd]
      refine visit ?_
      cases s.document.references.get? label with
      | none => exact all st hst rfl fun _ hm => hm
      | some target =>
        exact wrapped (all { st with hyperlink := some target.url } ⟨hst.1, hst.2⟩ rfl fun _ hm => hm) _ _
    | htmlEntityUnicode code => exact visit (charOfCode hst code)
    | metaReference key => exact visit (metaText hst hd key)
    | inlineScript expression alone =>
      have hx : s.extensions.evaluator? = none := Option.isNone_iff_eq_none.1 hw
      rw [Html.node, Render.node, Html.script, Render.script, hv, hx]
      exact visit (wrappedText { st with code := true } ⟨hst.1, hst.2⟩ expression .code [])
    | singleChild m =>
      have hm := child hst m (List.mem_singleton_self m)
      have hi : m.isInline = true := hi
      rw [Html.node, Render.node, Render.spanOrBlock, if_pos hi]
      exact visit hm
    | nestedBlock l =>
      rw [Html.node, Render.node, if_pos hi]
      exact visit (all st hst rfl fun _ hm => hm)
    | _ => cases hw

end

end Says

namespace Render

variable {setting : Setting} {limit : Nat} {d : Document}

/-- In any scope of a document and from any state, spans of text make runs wait, one after the other, and a reader
of their HTML sees the texts of these runs. If the token fires, neither comes to its end; if nobody fires it, both do. -/
theorem nodes_wording {l : List Node} (hl : ∀ n ∈ Node.walkAll l, n.isWording setting.extensions = true) {st : Style}
    (hst : st.Level) (levels : Nat) (expanding : List String) (p : Progress) :
    let s := scopeWithin setting limit d levels expanding
    (p.traversal.Rests → ∃ fragments, Html.nodes s.html l p.traversal = .ok (fragments, p.traversal)) ∧
      match Html.nodes s.html l p.traversal with
      | .error e => nodes s l st p = .done (.error e.error)
      | .ok (fragments, t) => ∃ runs : List Run,
        nodes s l st p = .done (.ok ((), ⟨t, p.runs.appendAll st.alignment runs⟩)) ∧
          readText (Html.markupAll fragments) = String.join (runs.map Run.text) := by
  intro s
  have hx : s.extensions = setting.extensions := congrArg Setting.extensions (scopeWithin_setting ..)
  have hh : s.html = (outerScope setting limit d).html.expanding levels expanding := scopeWithin_html ..
  have hd : s.html.document = s.document := by
    rw [hh, Html.expanding_document]
    exact (scopeWithin_document ..).symm
  have hv : s.html.evaluator? = s.extensions.evaluator? := by
    rw [hh, hx, Html.expanding_evaluator?]
    rfl
  have h : Says st.alignment (Html.nodes s.html l) (nodes s l st) := by
    refine Says.nodes fun n hn => Says.node hd hv hst fun m hm => ?_
    rw [hx]
    exact hl m (Node.walkAll_eq l ▸ List.mem_flatMap.2 ⟨n, hn, hm⟩)
  refine ⟨h.rests, ?_⟩
  split
  · rename_i e he
    exact h.halts he
  · rename_i fragments t ht
    obtain ⟨he, runs, hr, hs⟩ := h.ends ht
    exact ⟨runs, hr, (readText_markupAll he).trans hs.symm⟩

/-- Characters that must be escaped, entities known and not known, a number that is no character and a script. -/
def wordedSpans : List Node :=
  [.text "a<b", .strong [.htmlEntity "amp", .htmlEntity "no", .htmlEntityUnicode 0xD800, .lineBreak],
    .singleChild (.nestedBlock [.inlineScript "f('x')" false, .linkReference "nowhere" [.autoLinkUrl "?a&b"]])]

theorem nodes_wording_quoted :
    let s := scopeWithin ⟨.ofKind .maui, .standard⟩ 4 entangled 1 ["a"]
    ∃ fragments runs, Html.nodes s.html wordedSpans (.start none) = .ok (fragments, .start none) ∧
      nodes s wordedSpans .plain ⟨.start none, ∅⟩ =
        .done (.ok ((), ⟨.start none, (∅ : RunBuffer).appendAll .left runs⟩)) ∧
      readText (Html.markupAll fragments) = String.join (runs.map Run.text) ∧
      readText (Html.markupAll fragments) = "a<b&&no;\nf('x')?a&b" := by
  intro s
  have hl : ∀ n ∈ Node.walkAll wordedSpans, n.isWording .standard = true := by decide +kernel
  have h := @nodes_wording ⟨.ofKind .maui, .standard⟩ 4 entangled wordedSpans hl .plain ⟨rfl, rfl⟩ 1 ["a"]
    ⟨.start none, ∅⟩
  obtain ⟨fragments, hf, hs⟩ : ∃ fragments, Html.nodes s.html wordedSpans (.start none) =
      .ok (fragments, .start none) ∧ readText (Html.markupAll fragments) = "a<b&&no;\nf('x')?a&b" :=
    ⟨_, rfl, by decide +kernel⟩
  have he := h.2
  rw [hf] at he
  obtain ⟨runs, hr, ht⟩ := he
  exact ⟨fragments, runs, hf, hr, ht, hs⟩

end Render

end XamlDoc
