import XamlDoc.Proofs.Footnote.Expansion
import XamlDoc.Proofs.Render.Numbering

/-!
# Numbers in labels and around them

Nodes give the same numbers to footnotes whether they are rendered as elements or as the HTML of a label, from
any numbers given before and inside any expansion, as long as there are no media: these are shown by handlers in
one way and as images in the other. Scripts give no numbers, because the documents that they return have their own.
-/

namespace XamlDoc

open Markup

variable {σ : Type} [Writer σ] {R : Comparison}

namespace Adds

/-! ### Scripts -/

theorem cancelIf (cancels : Bool) : Adds R σ Unit (Rendering.cancelIf cancels) [] := by
  intro p w a q h
  cases h
  exact ⟨[], R.refl [], rfl⟩

theorem scriptDocument (setting : Setting) (limit : Nat) (d : Document) :
    Adds R σ Unit (Render.scriptDocument setting limit d) [] := by
  cases limit with
  | zero =>
    intro p w a q h
    cases h
  | succ limit =>
    rw [Render.scriptDocument, Render.included_eq]
    exact ownNumbers _

end Adds

namespace Render

/-! ### Scopes of a document -/

section

variable (setting : Setting) (limit : Nat) (d : Document)

/-- The scope in which the footnotes of a document are about to be expanded. -/
def outerScope : Scope :=
  let nestedHtml := Html.nestedDocument setting.extensions.evaluator? setting.dialect.profile limit
  { setting
    document := d
    inPlace := fun _ => none
    detail? := d.detail.map (included setting (scriptDocument setting limit) nestedHtml)
    nested := scriptDocument setting limit
    html := ⟨setting.extensions.evaluator?, setting.dialect.profile, d, fun _ => none, nestedHtml⟩ }

/-- The scope of a document while its footnotes `expanding` are being expanded and at most `levels` more can be. -/
def scopeWithin (levels : Nat) (expanding : List String) : Scope :=
  expandingScope (outerScope setting limit d) levels expanding

/-- A document begins in the scope in which no footnote is being expanded. -/
theorem scopeWithin_size : scopeWithin setting limit d d.footnotes.size [] =
    scopeOf setting (scriptDocument setting limit)
      (Html.nestedDocument setting.extensions.evaluator? setting.dialect.profile limit) d := rfl

section

variable (levels : Nat) (expanding : List String)

theorem scopeWithin_setting : (scopeWithin setting limit d levels expanding).setting = setting :=
  expandingScope_setting ..

theorem scopeWithin_document : (scopeWithin setting limit d levels expanding).document = d :=
  expandingScope_document ..

theorem scopeWithin_html : (scopeWithin setting limit d levels expanding).html =
    (outerScope setting limit d).html.expanding levels expanding := expandingScope_html ..

theorem scopeWithin_detail : (scopeWithin setting limit d levels expanding).detail? =
    (outerScope setting limit d).detail? := by
  cases levels <;> rfl

theorem scopeWithin_nested :
    (scopeWithin setting limit d levels expanding).nested = scriptDocument setting limit := by
  cases levels <;> rfl

end

theorem silent_outerScope : (outerScope setting limit d).Silent R σ where
  script := (Adds.compositional _).script (Adds.scriptDocument setting limit) fun _ _ _ => Adds.cancelIf _
  detail hm := by
    obtain ⟨detail, -, rfl⟩ := Option.map_eq_some_iff.1 hm
    rw [included_eq]
    exact Adds.ownNumbers _
  htmlScript := Html.adds_script (Html.adds_nestedDocument _ _ limit)
  htmlDocument := rfl

end

theorem offersNode_of_isMedia_eq_false {P : (α : Type) → Rendering α → List String → Prop} {s : Scope}
    {takes : MediaItem → Bool} {n : Node} (hn : n.isMedia = false) : s.OffersNode P takes n := by
  intro items hi
  cases n with
  | multimedia _ _ _ | multimediaReference _ _ _ => cases hn
  | _ => cases hi

/-! ### Numbers -/

variable {setting : Setting} {limit : Nat} {d : Document} {levels : Nat} {expanding : List String}

/-- In any scope of a document, nodes rendered as elements and as HTML leave the same numbers, if neither they nor
the footnotes hold media. These are the numbers given when the references are followed one by one, after which
the same footnotes are being expanded as before. -/
theorem nodes_numbering_eq {l : List Node} (hl : ∀ n ∈ Node.walkAll l, n.isMedia = false)
    (hf : ∀ f ∈ d.footnotes.entries, ∀ n ∈ Node.walkAll f.content, n.isMedia = false) {st : Style}
    {p q : Progress} {w : σ} {t u : Traversal} {fs : List Html.Fragment}
    (hn : t.numbering = p.traversal.numbering)
    (hx : (Writing.run (nodes (scopeWithin setting limit d levels expanding) l st p) w).1 = .ok ((), q))
    (hh : Html.nodes (scopeWithin setting limit d levels expanding).html l t = .ok (fs, u)) :
    let c : Sight := ⟨fun _ => false, d.references⟩
    q.traversal.numbering = u.numbering ∧
      (c.shownAll .html l).foldl (d.footnotes.follow c levels) ⟨expanding, t.numbering⟩ =
        ⟨expanding, u.numbering⟩ := by
  intro c
  have hs : (outerScope setting limit d).Silent .exactly σ := silent_outerScope setting limit d
  have offers {l : List Node} (hl : ∀ n ∈ Node.walkAll l, n.isMedia = false) (n : Node)
      (hn : n ∈ Node.walkAll l) : (outerScope setting limit d).OffersNode (Adds .exactly σ) (fun _ => false) n :=
    offersNode_of_isMedia_eq_false (hl n hn)
  -- each side adds the keys of its own view of the references; without media the views differ in nothing printed
  have elements := hs.nodes (fun f hm => offers (hf f hm)) levels expanding (offers hl) st
  have html := Html.adds_nodes c.takes hs.htmlScript levels expanding l
  have view := ShownLink.flatMap_congr (d.footnotes.printed_view (c := c) hf levels expanding)
    (c.map_link_shownAll hl .blocks .html)
  obtain ⟨k, rfl, hq⟩ := elements p w () q hx
  have hu : u.numbering = t.numbering.addAll ((c.shownAll .html l).flatMap
      (d.footnotes.printed c levels expanding)) := by
    rw [scopeWithin, expandingScope_html] at hh
    exact html t fs u hh
  refine ⟨?_, ?_⟩
  · rw [hq, hu, hn, ← view]
    rfl
  · rw [Footnotes.foldl_follow, hu]

def entangled : Document :=
  ((Document.ofNodes []).withFootnote "a" [.paragraph [.footnoteReference "b" true]]).withFootnote "b"
    [.footnoteReference "a" true, .footnoteReference "b" false]

def headerAndList : List Node :=
  [.header 1 [.footnoteReference "a" true], .bulletList [.footnoteReference "b" true, .inlineScript "x" false]]

def textSetting : Setting := ⟨.ofKind .maui, Extensions.none.withEvaluator fun _ => ⟨.ok (.text "x"), false⟩⟩

def numberedBefore : Traversal := { Traversal.start none with numbering := Numbering.addAll ∅ ["c"] }

/-- While the second of the footnotes is being expanded, its number is printed inside the first. -/
theorem nodes_numbering_eq_entangled :
    let s := scopeWithin textSetting 1 entangled 1 ["b"]
    ∃ q fs u, (Writing.run (nodes s headerAndList .plain ⟨numberedBefore, ∅⟩) TreeBuilder.empty).1 = .ok ((), q) ∧
      Html.nodes s.html headerAndList numberedBefore = .ok (fs, u) ∧
      q.traversal.numbering = u.numbering ∧ u.numbering.keys = ["c", "b"] := by
  intro s
  have media : ∀ n ∈ Node.walkAll headerAndList, n.isMedia = false := by decide
  have mediaNotes : ∀ f ∈ entangled.footnotes.entries, ∀ n ∈ Node.walkAll f.content, n.isMedia = false := by decide
  let r := Writing.run (nodes s headerAndList .plain ⟨numberedBefore, ∅⟩) TreeBuilder.empty
  obtain ⟨q, w, hr⟩ := exists_run (r := r) (by decide +kernel)
  have hx : r.1 = .ok ((), q) := congrArg Prod.fst hr
  obtain ⟨fs, u, hh⟩ : ∃ fs u, Html.nodes s.html headerAndList numberedBefore = .ok (fs, u) := ⟨_, _, rfl⟩
  obtain ⟨hn, hf⟩ := nodes_numbering_eq media mediaNotes rfl hx hh
  refine ⟨q, fs, u, hx, hh, hn, ?_⟩
  rw [← congrArg (fun e => e.numbering.keys) hf]
  decide +kernel

end Render

end XamlDoc
