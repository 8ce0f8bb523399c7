import Mathlib.Control.Monad.Basic
import XamlDoc.Proofs.Render.Balance
import XamlDoc.Proofs.Render.Together

/-!
# Both dialects

A document rendered in both dialects with one profile ends alike, and the two trees differ in vocabulary only: where
each `ScrollView` is replaced by its children, its other names and attributes neutral, they are equal. Calls go side
by side; the one dialect may have more elements open than the other, but those that the other lacks let a table
scroll.
-/

namespace XamlDoc

open Markup Rendering Layout Render

/-! ### Neutral trees -/

namespace Markup.Content

mutual

/-- A content in neutral words. What is around other contents to let them scroll goes. -/
def neutral : Content → List Content
  | .element name attributes children =>
    if name = "ScrollView" then neutralAll children
    else [.element (neutralName name) (neutralAttributes attributes) (neutralAll children)]
  | .text t => [.text t]
  | .raw t => [.raw t]
  | .comment t => [.comment t]

def neutralAll : List Content → List Content
  | [] => []
  | c :: r => neutral c ++ neutralAll r

end

theorem neutralAll_append (a b : List Content) : neutralAll (a ++ b) = neutralAll a ++ neutralAll b := by
  induction a with
  | nil => rfl
  | cons c r ih => simp only [List.cons_append, neutralAll, ih, List.append_assoc]

/-! ### What is read off a tree -/

mutual

/-- The texts at or below a content, in document order. -/
def texts : Content → List String
  | .element _ _ children => allTexts children
  | .text t | .raw t => [t]
  | .comment _ => []

def allTexts : List Content → List String
  | [] => []
  | c :: r => texts c ++ allTexts r

end

mutual

/-- The values of an attribute at or below a content, in document order. Elements that let their children scroll
are passed over. -/
def values (key : String) : Content → List String
  | .element name attributes children =>
    let own := if name = "ScrollView" then [] else (attributes.filter (·.1 = key)).map Prod.snd
    own ++ allValues key children
  | .text _ | .raw _ | .comment _ => []

def allValues (key : String) : List Content → List String
  | [] => []
  | c :: r => values key c ++ allValues key r

end

theorem allTexts_append (a b : List Content) : allTexts (a ++ b) = allTexts a ++ allTexts b := by
  induction a with
  | nil => rfl
  | cons c r ih => simp only [List.cons_append, allTexts, ih, List.append_assoc]

theorem allValues_append (key : String) (a b : List Content) :
    allValues key (a ++ b) = allValues key a ++ allValues key b := by
  induction a with
  | nil => rfl
  | cons c r ih => simp only [List.cons_append, allValues, ih, List.append_assoc]

mutual

theorem texts_neutral (c : Content) : allTexts c.neutral = c.texts := by
  cases c with
  | element name attributes children =>
    have hc := allTexts_neutralAll children
    rw [neutral, texts, ← hc]
    split
    · rfl
    · exact List.append_nil _
  | text t | raw t | comment t => rfl

/-- Neutral words have the same texts. -/
theorem allTexts_neutralAll (k : List Content) : allTexts (neutralAll k) = allTexts k := by
  cases k with
  | nil => rfl
  | cons c r => rw [neutralAll, allTexts_append, texts_neutral c, allTexts_neutralAll r, allTexts]

end

theorem neutralName_ne {name : String} (h : name ≠ "ScrollView") : neutralName name ≠ "ScrollView" := by
  rw [neutralName]
  split
  · decide
  · exact h

theorem filter_neutralAttributes {key : String} (h : key ∉ lookNames) (attributes : List Attribute) :
    (neutralAttributes attributes).filter (·.1 = key) = attributes.filter (·.1 = key) := by
  rw [neutralAttributes, List.filter_filter]
  refine List.filter_congr fun a _ => ?_
  by_cases ha : a.1 = key
  · simp [ha, h]
  · simp [ha]

mutual

theorem values_neutral {key : String} (h : key ∉ lookNames) (c : Content) :
    allValues key c.neutral = c.values key := by
  cases c with
  | element name attributes children =>
    have hc := allValues_neutralAll h children
    rw [neutral, values]
    by_cases hn : name = "ScrollView"
    · rw [if_pos hn, if_pos hn]
      exact hc
    · rw [if_neg hn, if_neg hn, allValues, values, if_neg (neutralName_ne hn), filter_neutralAttributes h, hc]
      exact List.append_nil _
  | text t | raw t | comment t => rfl

/-- Neutral words have the same values of attributes that are not about the look. -/
theorem allValues_neutralAll {key : String} (h : key ∉ lookNames) (k : List Content) :
    allValues key (neutralAll k) = allValues key k := by
  cases k with
  | nil => rfl
  | cons c r => rw [neutralAll, allValues_append, values_neutral h c, allValues_neutralAll h r, allValues]

end

end Markup.Content

open Content (allCalls AllDistinct neutralAll)

/-! ### Calls side by side -/

/-- Contents, in which no element carries two attributes of one name, that are the same in neutral words. -/
structure Akin (k k' : List Content) : Prop where
  left : AllDistinct k
  right : AllDistinct k'
  neutral : neutralAll k = neutralAll k'

namespace Akin

theorem refl {k : List Content} (h : AllDistinct k) : Akin k k := ⟨h, h, rfl⟩

theorem append {k k' l l' : List Content} (hk : Akin k k') (hl : Akin l l') : Akin (k ++ l) (k' ++ l') where
  left := Content.allDistinct_append hk.left hl.left
  right := Content.allDistinct_append hk.right hl.right
  neutral := by rw [Content.neutralAll_append, Content.neutralAll_append, hk.neutral, hl.neutral]

theorem element {f : Dialect → Tag} (hf : Common f) {d d' : Dialect} (hp : d'.profile = d.profile)
    {k k' : List Content} (hk : Akin k k') :
    Akin [.element (f d).name (f d).attributes k] [.element (f d').name (f d').attributes k'] where
  left := ⟨⟨hf.distinct d, hk.left⟩, trivial⟩
  right := ⟨⟨hf.distinct d', hk.right⟩, trivial⟩
  neutral := by
    obtain ⟨hn, ha⟩ := Tag.mk.inj (hf.neutral hp)
    simp only [neutralAll, Content.neutral, if_neg (hf.stays d), if_neg (hf.stays d'), hk.neutral, hn, ha]

theorem scroll {attributes : List Attribute} (ha : DistinctNames attributes) {k k' : List Content}
    (hk : Akin k k') : Akin [.element "ScrollView" attributes k] k' where
  left := ⟨⟨ha, hk.left⟩, trivial⟩
  right := hk.right
  neutral := by
    rw [← hk.neutral]
    exact List.append_nil _

end Akin

/-- Calls that write contents that are akin, but leave the last `n` and the last `n'` elements open: tags of two
dialects, and elements of the one that let a table scroll. -/
inductive SideBySide : Nat → Nat → List Call → List Call → Prop where
  | nil : SideBySide 0 0 [] []
  | whole {n n' : Nat} {cs cs' : List Call} {k k' : List Content} :
    SideBySide n n' cs cs' → Akin k k' → SideBySide n n' (cs ++ allCalls k) (cs' ++ allCalls k')
  | tag {n n' : Nat} {cs cs' : List Call} {f : Dialect → Tag} {d d' : Dialect} :
    SideBySide n n' cs cs' → Common f → d'.profile = d.profile →
      SideBySide (n + 1) (n' + 1) (cs ++ Call.ofTag (f d)) (cs' ++ Call.ofTag (f d'))
  | scroll {n n' : Nat} {cs cs' : List Call} {attributes : List Attribute} :
    SideBySide n n' cs cs' → DistinctNames attributes →
      SideBySide (n + 1) n' (cs ++ Call.ofTag ⟨"ScrollView", attributes⟩) cs'

namespace SideBySide

variable {n n' m m' : Nat} {a a' b b' : List Call}

theorem ofWhole {cs : List Call} (h : Whole cs) : SideBySide 0 0 cs cs := by
  obtain ⟨k, rfl, hk⟩ := h
  exact nil.whole (Akin.refl hk)

theorem ofTag {f : Dialect → Tag} (hf : Common f) (d d' : Dialect) (hp : d'.profile = d.profile) :
    SideBySide 1 1 (Call.ofTag (f d)) (Call.ofTag (f d')) := nil.tag hf hp

theorem append (ha : SideBySide n n' a a') (hb : SideBySide m m' b b') :
    SideBySide (n + m) (n' + m') (a ++ b) (a' ++ b') := by
  induction hb with
  | nil =>
    rw [List.append_nil, List.append_nil]
    exact ha
  | whole _ hk ih =>
    rw [← List.append_assoc, ← List.append_assoc]
    exact ih.whole hk
  | tag _ hf hp ih =>
    rw [← List.append_assoc, ← List.append_assoc]
    exact ih.tag hf hp
  | scroll _ ht ih =>
    rw [← List.append_assoc]
    exact ih.scroll ht

theorem opening (h : SideBySide n n' a a') : Opening n a ∧ Opening n' a' := by
  induction h with
  | nil => exact ⟨.nil, .nil⟩
  | whole _ hk ih => exact ⟨ih.1.whole ⟨_, rfl, hk.left⟩, ih.2.whole ⟨_, rfl, hk.right⟩⟩
  | tag _ hf _ ih => exact ⟨ih.1.tag (hf.distinct _), ih.2.tag (hf.distinct _)⟩
  | scroll _ ht ih => exact ⟨ih.1.tag ht, ih.2⟩

/-- Closed again around contents that are akin, calls side by side write contents that are akin. -/
theorem close (h : SideBySide n n' a a') {k k' : List Content} (hk : Akin k k') :
    ∃ l l', a ++ (allCalls k ++ List.replicate n .close) = allCalls l ∧
      a' ++ (allCalls k' ++ List.replicate n' .close) = allCalls l' ∧ Akin l l' := by
  have closed (t : Tag) (cs : List Call) (i : Nat) (k : List Content) :
      cs ++ Call.ofTag t ++ (allCalls k ++ List.replicate (i + 1) .close) =
        cs ++ (allCalls [.element t.name t.attributes k] ++ List.replicate i .close) := by
    simp [Content.allCalls, Content.calls, List.replicate_succ]
  induction h generalizing k k' with
  | nil => exact ⟨k, k', List.append_nil _, List.append_nil _, hk⟩
  | whole _ hl ih =>
    obtain ⟨l, l', e, e', hl⟩ := ih (hl.append hk)
    refine ⟨l, l', ?_, ?_, hl⟩
    · rw [← e, Content.allCalls_append, List.append_assoc, List.append_assoc]
    · rw [← e', Content.allCalls_append, List.append_assoc, List.append_assoc]
  | tag _ hf hp ih =>
    obtain ⟨l, l', e, e', hl⟩ := ih (Akin.element hf hp hk)
    exact ⟨l, l', (closed _ _ _ k).trans e, (closed _ _ _ k').trans e', hl⟩
  | scroll _ ht ih =>
    obtain ⟨l, l', e, e', hl⟩ := ih (Akin.scroll ht hk)
    exact ⟨l, l', (closed _ _ _ k).trans e, e', hl⟩

end SideBySide

namespace Layout

theorem captionStart_sideBySide (p : Profile) (caption : String) :
    SideBySide 1 1 (captionStart ⟨.maui, p⟩ caption) (captionStart ⟨.xamarinForms, p⟩ caption) := by
  have hl : Whole (Call.ofTag ⟨"Label", [("LineBreakMode", "WordWrap"), ("FontAttributes", "Italic"),
      ("Text", caption)]⟩ ++ [.close]) := Whole.leaf (by simp [DistinctNames])
  rw [captionStart, captionStart, List.append_assoc, List.append_assoc]
  exact (SideBySide.ofTag Common.stack ⟨.maui, p⟩ ⟨.xamarinForms, p⟩ rfl).append (.ofWhole hl)

/-- Both dialects open the same around the rows of a table, but for the element that lets them scroll. -/
theorem tableStart_sideBySide (p : Profile) (t : Table Part) :
    ∃ n n', SideBySide n n' (tableStart ⟨.maui, p⟩ t) (tableStart ⟨.xamarinForms, p⟩ t) := by
  have hw : SideBySide 1 0 (Call.ofTag ⟨"ScrollView", [("Orientation", "Horizontal")]⟩) [] :=
    .scroll .nil (by simp [DistinctNames])
  have hg : Common fun _ => gridTag "-2" := .fixed (gridTag_distinct _) (by simp [gridTag])
  have hd := gridDefinitions_whole (List.replicate t.columns.toNat "Auto") t.allRows.length
  have hc : ∃ n, SideBySide n n ((t.caption.map (captionStart ⟨.maui, p⟩)).getD [])
      ((t.caption.map (captionStart ⟨.xamarinForms, p⟩)).getD []) := by
    cases t.caption with
    | none => exact ⟨0, .nil⟩
    | some caption => exact ⟨1, captionStart_sideBySide p caption⟩
  obtain ⟨n, hc⟩ := hc
  have hf := SideBySide.ofTag (Common.tableFrame t.id) ⟨.maui, p⟩ ⟨.xamarinForms, p⟩ rfl
  have hs := SideBySide.ofTag hg ⟨.maui, p⟩ ⟨.xamarinForms, p⟩ rfl
  exact ⟨_, _, ((hw.append hf).append hc).append (hs.append (.ofWhole hd))⟩

end Layout

/-! ### Renderings side by side -/

/-- Two runs that end alike, with calls side by side. If they end well, everything is closed again. -/
structure Parallel {σ α : Type} [Writer σ] (m m' : Writing (Except RenderError α)) (w w' : σ) : Prop where
  answer : (m.run w).1 = (m'.run w').1
  made : ∃ n n', SideBySide n n' (m.made w) (m'.made w') ∧ ∀ a, (m.run w).1 = .ok a → n = 0 ∧ n' = 0

/-- On writers that work, the renderings in both dialects run in parallel. -/
def InBoth (σ : Type) [Writer σ] [Gauged σ] (α : Type) (m : DialectKind → Rendering α) : Prop :=
  ∀ (p : Progress) (w w' : σ), Gauged.Works w → Gauged.Works w' → Parallel (m .maui p) (m .xamarinForms p) w w'

namespace InBoth

open Gauged

variable {σ : Type} [Writer σ] [Gauged σ] {α β : Type}

theorem pass (m : Html.Pass α) : InBoth σ α fun _ => ofPass m := by
  intro p w w' _ _
  obtain ⟨r, hr⟩ := ofPass_eq_done m p
  simp only [hr]
  exact ⟨rfl, 0, 0, .nil, fun _ _ => ⟨rfl, rfl⟩⟩

theorem andThen {m : DialectKind → Rendering α} {f : DialectKind → α → Rendering β} (hm : InBoth σ α m)
    (hf : ∀ a, InBoth σ β fun k => f k a) : InBoth σ β fun k => m k >>= f k := by
  intro p w w' hw hw'
  obtain ⟨he, n, n', hc, hz⟩ := hm p w w' hw hw'
  cases hr : (Writing.run (m .maui p) w).1 with
  | ok r =>
    obtain ⟨rfl, rfl⟩ := hz _ hr
    obtain ⟨hrun, hmade⟩ := run_bind_ok hr (f .maui)
    obtain ⟨hrun', hmade'⟩ := run_bind_ok (he.symm.trans hr) (f .xamarinForms)
    obtain ⟨hf, i, i', hi, hz⟩ := hf r.1 r.2 _ _ (works_run (m .maui p) hw) (works_run (m .xamarinForms p) hw')
    refine ⟨?_, 0 + i, 0 + i', ?_, ?_⟩
    · rw [hrun, hrun', hf]
    · rw [hmade, hmade']
      exact hc.append hi
    · rw [hrun, Nat.zero_add, Nat.zero_add]
      exact hz
  | error e =>
    obtain ⟨hrun, hmade⟩ := run_bind_error hr (f .maui)
    obtain ⟨hrun', hmade'⟩ := run_bind_error (he.symm.trans hr) (f .xamarinForms)
    refine ⟨?_, n, n', ?_, fun a ha => ?_⟩
    · rw [hrun, hrun']
    · rw [hmade, hmade']
      exact hc
    · rw [hrun] at ha
      cases ha

theorem whole {cs : List Call} (h : Whole cs) : InBoth σ Unit fun _ => emit cs := by
  intro p w w' hw hw'
  obtain ⟨hr, hm⟩ := run_ofWriting (h.accepted hw).answer p
  obtain ⟨hr', hm'⟩ := run_ofWriting (h.accepted hw').answer p
  refine ⟨(congrArg Prod.fst hr).trans (congrArg Prod.fst hr').symm, 0, 0, ?_, fun _ _ => ⟨rfl, rfl⟩⟩
  rw [emit, hm, hm', (h.accepted hw).made, (h.accepted hw').made]
  exact .ofWhole h

theorem flush (profile : Profile) : InBoth σ Unit fun _ => Rendering.flush profile := fun p w w' hw hw' =>
  whole (RunBuffer.calls_whole profile p.runs) { p with runs := ∅ } w w' hw hw'

/-- Contents between tags of the dialects, that are closed again. -/
theorem enclosed {n n' : Nat} {start start' : List Call} (hs : SideBySide n n' start start')
    {m : DialectKind → Rendering Unit} (hm : InBoth σ Unit m) {p : Progress} {w w' : σ} (hw : Works w)
    (hw' : Works w') {finish finish' : Writing (Except WriteError Unit)} (hf : Closes σ (Writer.depth w) n finish)
    (hf' : Closes σ (Writer.depth w') n' finish') :
    Parallel ((do emit start; m .maui; ofWriting finish : Rendering Unit) p)
      ((do emit start'; m .xamarinForms; ofWriting finish' : Rendering Unit) p) w w' := by
  have ho := hs.opening.1.accepted hw
  have ho' := hs.opening.2.accepted hw'
  obtain ⟨he, i, i', hc, hz⟩ := hm p _ _ (works_run (Writing.calls start) hw) (works_run (Writing.calls start') hw')
  cases hr : (Writing.run (m .maui p) ((Writing.calls start).run w).2).1 with
  | ok r =>
    obtain ⟨rfl, rfl⟩ := hz _ hr
    obtain ⟨k, k', hk, hk', ha⟩ := hc.close (Akin.refl (k := []) trivial)
    obtain ⟨l, l', hl, hl', ha⟩ := hs.close ha
    have hk : _ = allCalls k := (List.append_nil _).symm.trans hk
    have hk' : _ = allCalls k' := (List.append_nil _).symm.trans hk'
    obtain ⟨hrun, hmade⟩ := run_enclosed hw hs.opening.1 hf hr hk
    obtain ⟨hrun', hmade'⟩ := run_enclosed hw' hs.opening.2 hf' (he.symm.trans hr) hk'
    refine ⟨hrun.trans hrun'.symm, 0, 0, ?_, fun _ _ => ⟨rfl, rfl⟩⟩
    rw [hmade, hmade', hl, hl']
    exact .whole .nil ha
  | error e =>
    obtain ⟨hrun, hmade⟩ := run_enclosed_error hw hs.opening.1 hr
    obtain ⟨hrun', hmade'⟩ := run_enclosed_error hw' hs.opening.2 (he.symm.trans hr)
    refine ⟨hrun.trans hrun'.symm, n + i, n' + i', ?_, fun a ha => ?_⟩
    · rw [hmade, hmade']
      exact hs.append hc
    · rw [hrun] at ha
      cases ha

/-- What both dialects have in common, and their tables, go into parallel renderings. -/
theorem abreast (p : Profile) : Abreast p (fun k => ⟨k, p⟩) fun _ _ => InBoth σ where
  agree _ := rfl
  pass _ _ m _ := pass m
  andThen := andThen
  enter h := h
  leave h := h
  append _ _ _ _ _ _ _ := ⟨rfl, 0, 0, .nil, fun _ _ => ⟨rfl, rfl⟩⟩
  comment _ _ _ _ _ _ := ⟨rfl, 0, 0, .nil, fun _ _ => ⟨rfl, rfl⟩⟩
  flush := flush p
  whole := whole
  element hf hm _ _ _ hw hw' :=
    enclosed (.ofTag hf ⟨.maui, p⟩ ⟨.xamarinForms, p⟩ rfl) hm hw hw' (closes_one _) (closes_one _)
  framed t m hm := by
    intro q w w' hw hw'
    obtain ⟨n, n', hs⟩ := tableStart_sideBySide p t
    have h := enclosed hs hm hw hw' (p := q) (closes_closeTo _ n) (closes_closeTo _ n')
    exact ⟨h.answer, h.made⟩

end InBoth

/-! ### Media -/

namespace InBoth

open Gauged

variable {σ : Type} [Writer σ] [Gauged σ] {x : Extensions} (hx : x.BuiltIn) {s : DialectKind → Scope} {p : Profile}
  (hs : ∀ k, (s k).setting = ⟨⟨k, p⟩, x⟩)
include hx hs

theorem media (st : Style) (items : List MediaItem) {alternative : DialectKind → Rendering Unit}
    (ha : InBoth σ Unit alternative) : InBoth σ Unit fun k => media (s k) st (alternative k) items := by
  induction items with
  | nil => exact ha
  | cons item r ih =>
    have hp (k : DialectKind) : (s k).profile = p := by rw [Scope.profile, hs]
    have hb (k : DialectKind) : item.type?.bind (s k).extensions.mediaHandler? = item.type?.bind x.mediaHandler? := by
      rw [Scope.extensions, hs]
    simp only [Render.media, hp, hb]
    cases hh : item.type?.bind x.mediaHandler? with
    | none => exact ih
    | some handler =>
      obtain ⟨key, hk⟩ := mem_of_mediaHandler? hh
      obtain rfl : handler = imageHandler := hx.2 _ hk
      refine andThen (flush p) fun _ q w w' hw hw' => ?_
      let rest (k : DialectKind) (_ : List String) := Render.media (s k) st (alternative k) r
      by_cases hu : item.url = ""
      · obtain ⟨hr, hm⟩ := offered_imageHandler_empty (s .maui) st.alignment (rest .maui) q hu w
        obtain ⟨hr', hm'⟩ := offered_imageHandler_empty (s .xamarinForms) st.alignment (rest .xamarinForms) q hu w'
        obtain ⟨he, hc⟩ := ih q w w' hw hw'
        refine ⟨?_, ?_⟩
        · rw [hr, hr']
          exact he
        · rw [hr, hm, hm']
          exact hc
      · obtain ⟨hr, hm⟩ := offered_imageHandler (s .maui) st.alignment (rest .maui) q hu hw
        obtain ⟨hr', hm'⟩ := offered_imageHandler (s .xamarinForms) st.alignment (rest .xamarinForms) q hu hw'
        refine ⟨hr.trans hr'.symm, 0, 0, ?_, fun _ _ => ⟨rfl, rfl⟩⟩
        rw [hm, hm']
        exact .ofWhole item.image.calls_whole

theorem code (st : Style) (b : CodeBlock) : InBoth σ Unit fun k => code (s k) st b := by
  have hb (k : DialectKind) : b.language.bind (s k).extensions.codeHandler? = none := by
    have hn (language : String) : (s k).extensions.codeHandler? language = none := by
      rw [Scope.extensions, hs, Extensions.codeHandler?, hx.1]
      rfl
    cases b.language with
    | none => rfl
    | some language => exact hn language
  have hd (k : DialectKind) : (s k).dialect = ⟨k, p⟩ := by rw [Scope.dialect, hs]
  simp only [Render.code, hb, Render.plainCode, hd]
  exact (abreast p).codeRows st b.rows

omit hs

theorem document (p : Profile) (limit : Nat) (D : Document) (inclusion : Bool) :
    InBoth σ Unit fun k => document ⟨⟨k, p⟩, x⟩ limit D inclusion := by
  have hS : InSettings (fun _ _ => InBoth σ) (fun k => ⟨k, p⟩) x.emojiSource? x.evaluator? fun k => ⟨⟨k, p⟩, x⟩ :=
    ⟨fun _ => rfl, fun _ => rfl, fun _ => rfl, fun st items _ hs ha => media hx hs st items ha,
      fun st b hs => code hx hs st b⟩
  exact hS.document (abreast p) pass limit D inclusion

end InBoth

/-! ### Documents -/

/-- A rendering of a document ends by closing what is still open. -/
theorem made_renderFrom {σ : Type} [Writer σ] [Gauged σ] {S : Setting} {limit : Nat} {D : Document}
    {inclusion : Bool} {t : Traversal} {w : σ} (hw : Gauged.Works w) {n : Nat} :
    let m : Writing (Except RenderError (Unit × Progress)) := document S limit D inclusion ⟨t, ∅⟩
    Opening n (m.made w) → (∀ a, (m.run w).1 = .ok a → n = 0) →
      ((renderFrom S limit D inclusion t).run w).1 = (m.run w).1.map (fun _ => ()) ∧
        (renderFrom S limit D inclusion t).made w = m.made w ++ List.replicate n .close := by
  intro m ho hz
  have hm : (renderFrom S limit D inclusion t).made w =
      m.made w ++ (unwound (Writer.depth w) (m.run w).1).made (m.run w).2 := by
    rw [Writing.made, steps_renderFrom, List.map_append]
    rfl
  have hr : (renderFrom S limit D inclusion t).run w =
      (unwound (Writer.depth w) (m.run w).1).run (m.run w).2 := run_renderFrom ..
  rw [hr, hm]
  cases he : (m.run w).1 with
  | ok a =>
    obtain rfl := hz a he
    exact ⟨rfl, rfl⟩
  | error e =>
    have ha := ho.accepted hw
    have hd : Writer.depth (m.run w).2 = Writer.depth w + n := by
      rw [Writing.run_eq_after, ← ha.made, ← Writing.run_eq_after]
      exact ha.depth
    have hc := accepted_closes (works_run m hw) hd
    obtain ⟨-, hs⟩ := closes_closeTo (Writer.depth w) n _ hd
    have hu : (unwound (Writer.depth w) (.error e)).made (m.run w).2 = List.replicate n .close := by
      rw [Writing.made, steps_unwound_error, hs]
      exact hc.made
    exact ⟨congrArg Prod.fst (run_unwound_error ..), congrArg (m.made w ++ ·) hu⟩

/-- On writers that work, renderings in both dialects end alike and write contents that are akin. -/
theorem akin_renderUntil {σ : Type} [Writer σ] [Gauged σ] (p : Profile) {x : Extensions} (hx : x.BuiltIn)
    (limit : Nat) (D : Document) (inclusion : Bool) (fuse? : Option Nat) {w w' : σ} (hw : Gauged.Works w)
    (hw' : Gauged.Works w') :
    let m (k : DialectKind) := renderUntil ⟨⟨k, p⟩, x⟩ limit D inclusion fuse?
    ((m .maui).run w).1 = ((m .xamarinForms).run w').1 ∧ ∃ k k',
      (m .maui).made w = allCalls k ∧ (m .xamarinForms).made w' = allCalls k' ∧ Akin k k' := by
  intro m
  obtain ⟨he, n, n', hc, hz⟩ := InBoth.document hx p limit D inclusion ⟨.start fuse?, ∅⟩ w w' hw hw'
  obtain ⟨hr, hm⟩ := made_renderFrom hw hc.opening.1 fun a ha => (hz a ha).1
  obtain ⟨hr', hm'⟩ := made_renderFrom hw' hc.opening.2 fun a ha => (hz a (he.trans ha)).2
  obtain ⟨k, k', hk, hk', ha⟩ := hc.close (Akin.refl (k := []) trivial)
  refine ⟨?_, k, k', hm.trans hk, hm'.trans hk', ha⟩
  show ((renderFrom _ limit D inclusion _).run w).1 = ((renderFrom _ limit D inclusion _).run w').1
  rw [hr, hr']
  exact congrArg _ he

/-- The trees of a document in both dialects, with one profile and no handler but the one for images, are equal in
neutral words. Both renderings succeed or fail alike, at whatever moment the token is fired, and all texts and all
values of attributes that are not about the look are the same. -/
theorem renderUntil_neutral (p : Profile) {x : Extensions} (hx : x.BuiltIn) (limit : Nat) (D : Document)
    (inclusion : Bool) (fuse? : Option Nat) :
    let r (k : DialectKind) := (renderUntil ⟨⟨k, p⟩, x⟩ limit D inclusion fuse?).run TreeBuilder.empty
    let maui := (r .maui).2.finish
    let forms := (r .xamarinForms).2.finish
    (r .maui).1 = (r .xamarinForms).1 ∧ neutralAll maui = neutralAll forms ∧
      Content.allTexts maui = Content.allTexts forms ∧
      ∀ key, key ∉ lookNames → Content.allValues key maui = Content.allValues key forms := by
  intro r maui forms
  have hw : Gauged.Works TreeBuilder.empty := trivial
  obtain ⟨he, k, k', hk, hk', ha⟩ := akin_renderUntil p hx limit D inclusion fuse? hw hw
  have hm : maui = k := by
    show (r .maui).2.finish = k
    rw [Writing.run_eq_after, hk, TreeBuilder.finish_allCalls]
  have hf : forms = k' := by
    show (r .xamarinForms).2.finish = k'
    rw [Writing.run_eq_after, hk', TreeBuilder.finish_allCalls]
  rw [hm, hf]
  refine ⟨he, ha.neutral, ?_, fun key h => ?_⟩
  · rw [← Content.allTexts_neutralAll, ha.neutral, Content.allTexts_neutralAll]
  · rw [← Content.allValues_neutralAll h, ha.neutral, Content.allValues_neutralAll h]

/-- A header, and a quoted table with a caption. -/
def quotedTable : Document :=
  let table := { (Table.ofColumns 2 : Table Node) with
    headers := [[some ⟨.text "a", some .center⟩, none]]
    rows := [[some ⟨.text "b", none⟩, some ⟨.strong [.text "c"], none⟩]]
    caption := some "t" }
  Document.ofNodes [.header 1 [.text "h"], .blockQuote [.table table]]

theorem renderUntil_neutral_quotedTable :
    let m (k : DialectKind) := renderUntil ⟨⟨k, .plain⟩, .standard⟩ 4 quotedTable false none
    Extensions.standard.BuiltIn ∧ ((m .maui).run TreeBuilder.empty).1 = .ok () ∧
      neutralAll ((m .maui).run TreeBuilder.empty).2.finish =
        neutralAll ((m .xamarinForms).run TreeBuilder.empty).2.finish := by
  have hr : ((renderUntil ⟨⟨.maui, .plain⟩, .standard⟩ 4 quotedTable false none).run TreeBuilder.empty).1 =
      .ok () := by decide +kernel
  exact ⟨builtIn_standard, hr, (renderUntil_neutral .plain builtIn_standard 4 quotedTable false none).2.1⟩

end XamlDoc
