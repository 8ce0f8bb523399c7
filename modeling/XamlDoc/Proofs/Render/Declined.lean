import Mathlib.Control.Monad.Basic
import XamlDoc.Proofs.Inline.Parts
import XamlDoc.Proofs.Render.Congruence

/-!
# Media that handlers leave alone

What waits is written before a handler is asked about media. If the handler then leaves the media alone, their
alternative is rendered as if there were no handler, but what waited before is a part of its own: a label in which
runs stand before and after the media is split there. Nothing else comes of asking.
-/

namespace XamlDoc

open Markup (Call TreeBuilder WriteError Writer Writing)
open Markup.Content (allCalls allNamed allComments)

/-! ### Settings -/

/-- On every tree, the handler writes nothing, leaves the node to its fallback and does not fire the token. -/
def LeavesAlone (handled : Writing Handled) : Prop :=
  ∀ b : TreeBuilder, (handled.run b).2 = b ∧ (handled.run b).1.left? ≠ none ∧ (handled.run b).1.cancels = false

/-- The handler that is asked about the item, if there is one, leaves it alone. -/
def Extensions.LeaveAlone (x : Extensions) (item : MediaItem) : Prop :=
  ∀ handler, item.type?.bind x.mediaHandler? = some handler → ∀ context, LeavesAlone (handler item context)

/-- The handler that fails at once for other items than those in `asked`. -/
def refusing (asked : MediaItem → Bool) (e : WriteError) (handler : MediaHandler) : MediaHandler :=
  fun item context => if asked item then handler item context else .done ⟨.error (.write e), false⟩

/-- With this setting a rendering fails as soon as it would ask a handler about another item. -/
def Setting.refusing (S : Setting) (asked : MediaItem → Bool) (e : WriteError) : Setting :=
  { S with extensions := S.extensions.mapMedia (XamlDoc.refusing asked e) }

def Setting.mediaFree (S : Setting) : Setting := { S with extensions := { S.extensions with media := [] } }

/-! ### Items that are never asked about -/

section

variable {e : WriteError}

/-- The second rendering fails with `e`, or it does the same as the first. -/
def UnlessRefused (e : WriteError) (α : Type) (m m' : Rendering α) : Prop :=
  ∀ (p : Progress) (b : TreeBuilder),
    (Writing.run (m' p) b).1 = .error (.write e) ∨ Writing.run (m p) b = Writing.run (m' p) b

namespace UnlessRefused

theorem refl {α : Type} (m : Rendering α) : UnlessRefused e α m m := fun _ _ => .inr rfl

theorem bind {α β : Type} {m m' : Rendering α} {f f' : α → Rendering β} (hm : UnlessRefused e α m m')
    (hf : ∀ a, UnlessRefused e β (f a) (f' a)) : UnlessRefused e β (m >>= f) (m' >>= f') := by
  intro p b
  rw [Rendering.bind_apply, Rendering.bind_apply, Writing.run_bind, Writing.run_bind]
  rcases hm p b with hr | hs
  · rw [hr]
    exact .inl rfl
  · rw [hs]
    cases (Writing.run (m' p) b).1 with
    | ok r => exact hf r.1 r.2 _
    | error e => exact .inr rfl

theorem congruent (profile : Profile) : Congruent profile fun _ _ => UnlessRefused e where
  pass _ _ _ := refl _
  andThen := bind
  enter h := h
  leave h := h
  append _ _ := refl _
  comment _ := refl _
  flush := refl _
  write _ := refl _
  depth := refl _

theorem offered {handler handler' : HandlerContext → Writing Handled} {s s' : Scope} (hd : s'.dialect = s.dialect)
    (alignment : Alignment) {fallback fallback' : List String → Rendering Unit}
    (hh : ∀ context, handler' context = handler context ∨ handler' context = .done ⟨.error (.write e), false⟩)
    (hf : ∀ messages, UnlessRefused e Unit (fallback messages) (fallback' messages)) :
    UnlessRefused e Unit (Render.offered handler s alignment fallback)
      (Render.offered handler' s' alignment fallback') := by
  intro p b
  rw [Render.run_offered, Render.run_offered, hd]
  rcases hh ⟨alignment, s.dialect⟩ with hh | hh
  · rw [hh]
    cases hl : ((handler ⟨alignment, s.dialect⟩).run b).1.left? with
    | none => exact .inr (by simp only [hl])
    | some messages =>
      simp only [hl]
      exact hf messages _ _
  · rw [hh]
    exact .inl rfl

theorem refusing (S : Setting) (asked : MediaItem → Bool) :
    Setting.Related (fun _ _ => UnlessRefused e) S (S.refusing asked e) where
  dialect := rfl
  emojiSource := rfl
  evaluator := rfl
  media {s s'} st items alternative alternative' hs hs' ha := by
    subst hs
    have hd : s'.dialect = s.dialect := by rw [Scope.dialect, hs']; rfl
    refine (congruent _).media hd (XamlDoc.refusing asked e) st items (fun type => ?_)
      (fun h item _ _ hf => offered hd _ (fun context => ?_) hf) ha
    · rw [Scope.extensions, hs']
      exact s.extensions.mediaHandler?_mapMedia (XamlDoc.refusing asked e) type
    · rw [XamlDoc.refusing]
      split
      · exact .inl rfl
      · exact .inr rfl
  code {s s'} st b hs hs' := by
    subst hs
    have hd : s'.dialect = s.dialect := by rw [Scope.dialect, hs']; rfl
    refine (congruent _).code hd id st b (fun language => ?_) fun h _ _ hf => offered hd _ (fun _ => .inl rfl) hf
    rw [Scope.extensions, hs', Option.map_id]
    rfl

end UnlessRefused

end

/-! ### Ahead and level -/

/-- On the left has been written what may still wait on the right. -/
structure Ahead (profile : Profile) (p p' : Progress) (b b' : TreeBuilder) : Prop where
  traversal : p.traversal = p'.traversal
  aligned : p.runs.Aligned
  written : ∃ front k before, InParts profile front k ∧ p'.runs = front.join p.runs ∧
    b = k.foldl TreeBuilder.push before ∧ TreeBuilder.Parted profile false before b'

/-- Nothing waits. -/
structure Level (profile : Profile) (p p' : Progress) (b b' : TreeBuilder) : Prop where
  traversal : p.traversal = p'.traversal
  runs : p.runs = ∅
  runs' : p'.runs = ∅
  tree : TreeBuilder.Parted profile false b b'

def Phase.Holds (profile : Profile) : Phase → Progress → Progress → TreeBuilder → TreeBuilder → Prop
  | .settled => Level profile
  | .flowing => Ahead profile

theorem Level.ahead {profile : Profile} {p p' : Progress} {b b' : TreeBuilder} (h : Level profile p p' b b') :
    Ahead profile p p' b b' where
  traversal := h.traversal
  aligned := h.runs ▸ RunBuffer.aligned_empty
  written := ⟨∅, [], b, .nil, by rw [h.runs, h.runs']; rfl, rfl, h.tree⟩

/-- What is on the left only is lost if the rendering ends here. -/
theorem Ahead.cut {profile : Profile} {p p' : Progress} {b b' : TreeBuilder} (h : Ahead profile p p' b b') :
    TreeBuilder.Parted profile true b b' := by
  obtain ⟨front, k, before, hk, -, rfl, ht⟩ := h.written
  have hp : TreeBuilder.Parted profile true (k.foldl TreeBuilder.push before) ([].foldl TreeBuilder.push b') :=
    ht.mono.pushed fun {l l'} hl => by
      rw [List.append_nil]
      exact hl.lost rfl hk
  exact hp

namespace Phase.Holds

variable {profile : Profile} {i : Phase} {p p' : Progress} {b b' : TreeBuilder}

theorem ahead (h : i.Holds profile p p' b b') : Ahead profile p p' b b' := by
  cases i with
  | settled => exact Level.ahead h
  | flowing => exact h

theorem withTraversal (h : i.Holds profile p p' b b') (t : Traversal) :
    i.Holds profile { p with traversal := t } { p' with traversal := t } b b' := by
  cases i with
  | settled => exact ⟨rfl, h.runs, h.runs', h.tree⟩
  | flowing => exact ⟨rfl, h.aligned, h.written⟩

end Phase.Holds

/-! ### Runs that end alike -/

section

variable {profile : Profile} {e : WriteError} {i j k : Phase} {α β : Type}

/-- The run on the left fails with `e`, or both end in the same way. -/
inductive Ends (profile : Profile) (e : WriteError) (j : Phase) {α : Type} :
    Except RenderError (α × Progress) × TreeBuilder → Except RenderError (α × Progress) × TreeBuilder → Prop where
  | refused (b : TreeBuilder) (r : Except RenderError (α × Progress) × TreeBuilder) :
    Ends profile e j (.error (.write e), b) r
  | failed (f : RenderError) {b b' : TreeBuilder} :
    TreeBuilder.Parted profile true b b' → Ends profile e j (.error f, b) (.error f, b')
  | ok (a : α) {p p' : Progress} {b b' : TreeBuilder} :
    j.Holds profile p p' b b' → Ends profile e j (.ok (a, p), b) (.ok (a, p'), b')

theorem Ends.ahead {r r' : Except RenderError (α × Progress) × TreeBuilder} (h : Ends profile e .settled r r') :
    Ends profile e .flowing r r' := by
  cases h with
  | refused => exact .refused _ _
  | failed f ht => exact .failed f ht
  | ok a hl => exact .ok a (Level.ahead hl)

/-- From what waits in phase `i`, both renderings end alike, in phase `j` if they end well. -/
def EndAlike (profile : Profile) (e : WriteError) (i j : Phase) (α : Type) (m m' : Rendering α) : Prop :=
  ∀ (p p' : Progress) (b b' : TreeBuilder), i.Holds profile p p' b b' →
    Ends profile e j (Writing.run (m p) b) (Writing.run (m' p') b')

theorem run_emit (cs : List Markup.Content) (p : Progress) (b : TreeBuilder) :
    Writing.run (Rendering.emit (allCalls cs) p) b = (.ok ((), p), cs.foldl TreeBuilder.push b) := by
  have ha := Markup.accepted_allCalls (σ := TreeBuilder) (w := b) trivial cs
  rw [Rendering.emit, (Rendering.run_ofWriting ha.answer p).1, Writing.run_eq_after, ha.made,
    TreeBuilder.after_allCalls]

theorem run_flush (profile : Profile) (p : Progress) (b : TreeBuilder) :
    Writing.run (Rendering.flush profile p) b =
      (.ok ((), { p with runs := ∅ }), (p.runs.contents profile).foldl TreeBuilder.push b) := by
  have hf : Rendering.flush profile p =
      Rendering.emit (allCalls (p.runs.contents profile)) { p with runs := ∅ } := by
    rw [← p.runs.calls_eq]
    rfl
  rw [hf, run_emit]

/-- What waits is written on the left only, as a part of its own. -/
theorem Ahead.flushed {p p' : Progress} {b b' : TreeBuilder} (h : Ahead profile p p' b b') :
    Ahead profile { p with runs := ∅ } p' ((p.runs.contents profile).foldl TreeBuilder.push b) b' := by
  obtain ⟨front, k, before, hk, hr, rfl, ht⟩ := h.written
  refine ⟨h.traversal, RunBuffer.aligned_empty, front.join p.runs, _, before, hk.part h.aligned, ?_, ?_, ht⟩
  · rw [RunBuffer.join_empty, hr]
  · exact (List.foldl_append ..).symm

theorem Ahead.level {p p' : Progress} {b b' : TreeBuilder} (h : Ahead profile p p' b b') :
    Level profile { p with runs := ∅ } { p' with runs := ∅ } ((p.runs.contents profile).foldl TreeBuilder.push b)
      ((p'.runs.contents profile).foldl TreeBuilder.push b') := by
  obtain ⟨front, k, before, hk, hr, rfl, ht⟩ := h.written
  refine ⟨h.traversal, rfl, rfl, ?_⟩
  rw [← List.foldl_append, hr]
  exact ht.pushed fun hl => hl.parts (hk.part h.aligned)

namespace EndAlike

theorem congruent (profile : Profile) : Congruent profile (EndAlike profile e) where
  pass i α m p p' b b' h := by
    have ht := h.ahead.traversal
    simp only [Rendering.ofPass, ← ht]
    cases m p.traversal with
    | ok r => exact .ok r.1 (h.withTraversal r.2)
    | error halt => exact .failed _ h.ahead.cut
  andThen {i j k α β m m' f f'} hm hf p p' b b' h := by
    have hr := hm p p' b b' h
    rw [Rendering.bind_apply, Rendering.bind_apply, Writing.run_bind, Writing.run_bind]
    generalize Writing.run (m p) b = r at hr ⊢
    generalize Writing.run (m' p') b' = r' at hr ⊢
    cases hr with
    | refused => exact .refused _ _
    | failed f ht => exact .failed f ht
    | ok a hj => exact hf a _ _ _ _ hj
  enter hm p p' b b' h := hm p p' b b' h.ahead
  leave hm p p' b b' h := (hm p p' b b' h).ahead
  append r a p p' b b' h := by
    obtain ⟨front, k, before, hk, hr, hb, ht⟩ := h.written
    refine .ok () ⟨h.traversal, p.runs.aligned_append r a, front, k, before, hk, ?_, hb, ht⟩
    show p'.runs.append r a = _
    rw [hr, RunBuffer.join_append]
  comment t p p' b b' h := by
    obtain ⟨front, k, before, hk, hr, hb, ht⟩ := h.written
    refine .ok () ⟨h.traversal, h.aligned.appendComment t, front, k, before, hk, ?_, hb, ht⟩
    show p'.runs.appendComment t = _
    rw [hr, RunBuffer.join_appendComment]
  flush p p' b b' h := by
    rw [run_flush, run_flush]
    exact .ok () h.level
  write w p p' b b' h := by
    obtain ⟨ha, ht⟩ := h.tree.run w
    rw [Rendering.ofWriting, Rendering.ofWriting, Writing.run_bind, Writing.run_bind, ← ha]
    cases (w.run b).1 with
    | ok a => exact .ok a ⟨h.traversal, h.runs, h.runs', ht⟩
    | error f => exact .failed _ ht.mono
  depth p p' b b' h := by
    obtain ⟨ha, ht⟩ := h.tree.run Writing.depth
    rw [Rendering.ofQuiet, Rendering.ofQuiet, Writing.run_bind, Writing.run_bind, ← ha]
    exact .ok _ ⟨h.traversal, h.runs, h.runs', ht⟩

theorem offered (handler : HandlerContext → Writing Handled) {s s' : Scope} (hd : s'.dialect = s.dialect)
    (alignment : Alignment) {fallback fallback' : List String → Rendering Unit}
    (hf : ∀ messages, EndAlike profile e .settled .settled Unit (fallback messages) (fallback' messages)) :
    EndAlike profile e .settled .settled Unit (Render.offered handler s alignment fallback)
      (Render.offered handler s' alignment fallback') := by
  intro p p' b b' h
  obtain ⟨ha, ht⟩ := h.tree.run (handler ⟨alignment, s.dialect⟩)
  rw [Render.run_offered, Render.run_offered, hd, ← h.tree.depth, ← h.traversal]
  generalize (handler ⟨alignment, s.dialect⟩).run b = r at ha ht ⊢
  generalize (handler ⟨alignment, s.dialect⟩).run b' = r' at ha ht ⊢
  obtain ⟨handled, c⟩ := r
  obtain ⟨handled', c'⟩ := r'
  obtain rfl : handled = handled' := ha
  have hl (d d' : TreeBuilder) (hd : TreeBuilder.Parted profile false d d') :
      Level profile { p with traversal := p.traversal.cancelIf handled.cancels }
        { p' with traversal := p.traversal.cancelIf handled.cancels } d d' := ⟨rfl, h.runs, h.runs', hd⟩
  cases hm : handled.left? with
  | some messages =>
    simp only [hm]
    exact hf messages _ _ _ _ (hl _ _ (ht.closeTo _))
  | none =>
    simp only [hm]
    obtain ⟨result, cancels⟩ := handled
    have hw := (congruent profile (e := e)).write (Writing.closeTo (Writer.depth b))
    rcases result with (f | f | f) | outcome
    · exact .failed _ ht.mono
    all_goals exact hw _ _ _ _ (hl _ _ ht)

/-- A handler that leaves the media alone is asked on the left. -/
theorem asked {handled : HandlerContext → Writing Handled} {s : Scope} (alignment : Alignment)
    {fallback : List String → Rendering Unit} {alternative' : Rendering Unit}
    (hh : ∀ context, LeavesAlone (handled context) ∨ handled context = .done ⟨.error (.write e), false⟩)
    (hf : ∀ messages, EndAlike profile e .flowing .flowing Unit (fallback messages) alternative') :
    EndAlike profile e .flowing .flowing Unit (do
      Rendering.flush profile
      Render.offered handled s alignment fallback) alternative' := by
  intro p p' b b' h
  have hrun := (Rendering.run_bind_ok (congrArg Prod.fst (run_flush profile p b))
    fun _ => Render.offered handled s alignment fallback).1
  rw [hrun, run_flush, Render.run_offered]
  have hb := h.flushed
  generalize (p.runs.contents profile).foldl TreeBuilder.push b = c at hb ⊢
  rcases hh ⟨alignment, s.dialect⟩ with hh | hh
  · obtain ⟨hc, hl, hn⟩ := hh c
    obtain ⟨messages, hm⟩ := Option.ne_none_iff_exists'.1 hl
    simp only [hm, hc, hn, Writing.run_closeTo_of_le (Nat.le_refl (Writer.depth c)), Traversal.cancelIf, Bool.or_false]
    exact hf messages _ _ _ _ hb
  · rw [hh]
    exact .refused _ _

theorem mediaFree (S : Setting) {asked : MediaItem → Bool}
    (ha : ∀ item, asked item = true → S.extensions.LeaveAlone item) :
    Setting.Related (EndAlike S.dialect.profile e) (S.refusing asked e) S.mediaFree where
  dialect := rfl
  emojiSource := rfl
  evaluator := rfl
  media {s s'} st items alternative alternative' hs hs' halt := by
    have hn (type : String) : s'.extensions.mediaHandler? type = none := by
      rw [Scope.extensions, hs', Setting.mediaFree, Extensions.mediaHandler?]
      cases Extensions.majorType? type.toLower <;> rfl
    have hp : s.profile = S.dialect.profile := by rw [Scope.profile, hs]; rfl
    induction items with
    | nil => exact halt
    | cons item r ih =>
      have hb : item.type?.bind s'.extensions.mediaHandler? = none := by
        cases item.type? with
        | none => rfl
        | some type => exact hn type
      have hr : item.type?.bind s.extensions.mediaHandler? =
          (item.type?.bind S.extensions.mediaHandler?).map (XamlDoc.refusing asked e) := by
        rw [Scope.extensions, hs]
        cases item.type? with
        | none => rfl
        | some type => exact S.extensions.mediaHandler?_mapMedia _ type
      rw [Render.media, Render.media, hb, hr]
      cases ho : item.type?.bind S.extensions.mediaHandler? with
      | none => exact ih
      | some own =>
        simp only [Option.map_some, hp]
        refine EndAlike.asked st.alignment (fun context => ?_) fun _ => ih
        rw [XamlDoc.refusing]
        split
        · rename_i hi
          exact .inl (ha item hi own ho context)
        · exact .inr rfl
  code {s s'} st b hs hs' := by
    have hd : s'.dialect = s.dialect := by rw [Scope.dialect, Scope.dialect, hs, hs']; rfl
    have hp : s.dialect.profile = S.dialect.profile := by rw [Scope.dialect, hs]; rfl
    have hc : Congruent s.dialect.profile (EndAlike S.dialect.profile e) := by
      rw [hp]
      exact congruent _
    refine hc.code hd id st b (fun language => ?_) fun h _ _ hf => offered (h b) hd _ hf
    rw [Scope.extensions, Scope.extensions, hs, hs', Option.map_id]
    rfl

end EndAlike

end

/-! ### Documents -/

theorem Ends.unwound {profile : Profile} {e : WriteError} {r r' : Except RenderError (Unit × Progress) × TreeBuilder}
    (h : Ends profile e .settled r r') (depth : Nat)
    (hr : ((unwound depth r.1).run r.2).1 ≠ .error (.write e)) :
    let u := (unwound depth r.1).run r.2
    let u' := (unwound depth r'.1).run r'.2
    u.1 = u'.1 ∧ Parted profile (!u.1.isOk) u.2.finish u'.2.finish := by
  cases h with
  | refused =>
    rw [run_unwound_error] at hr
    exact (hr rfl).elim
  | failed f ht =>
    rw [run_unwound_error, run_unwound_error]
    exact ⟨rfl, (ht.closeTo depth).finish⟩
  | ok a hl => exact ⟨rfl, hl.tree.finish⟩

/-- If all media that handlers are asked about are left alone, a rendering ends as without handlers for media. The
trees differ in the parts of labels at most; they are the same if there are as many labels, comments and comments in
labels. -/
theorem renderUntil_asks_in_vain (S : Setting) (limit : Nat) (d : Document) (inclusion : Bool) (fuse? : Option Nat)
    (asked : MediaItem → Bool) (ha : ∀ item, asked item = true → S.extensions.LeaveAlone item) (e : WriteError)
    (hr : ((renderUntil (S.refusing asked e) limit d inclusion fuse?).run TreeBuilder.empty).1 ≠ .error (.write e)) :
    let r := (renderUntil S limit d inclusion fuse?).run TreeBuilder.empty
    let r' := (renderUntil S.mediaFree limit d inclusion fuse?).run TreeBuilder.empty
    let k := r.2.finish
    let k' := r'.2.finish
    r.1 = r'.1 ∧ Parted S.dialect.profile (!r.1.isOk) k k' ∧
      (r.1 = .ok () → (allNamed "Span" k).map Markup.Element.attributes =
        (allNamed "Span" k').map Markup.Element.attributes) ∧
      (k = k' ↔ labels k = labels k' ∧ remarks k = remarks k' ∧ remarksInLabels k = remarksInLabels k') := by
  intro r r' k k'
  have hp : r.1 = r'.1 ∧ Parted S.dialect.profile (!r.1.isOk) k k' := by
    have hs : UnlessRefused e Unit (Render.document S limit d inclusion)
        (Render.document (S.refusing asked e) limit d inclusion) :=
      (UnlessRefused.refusing S asked).document (UnlessRefused.congruent _) limit d inclusion
    have hc : Congruent (S.refusing asked e).dialect.profile (EndAlike S.dialect.profile e) := EndAlike.congruent _
    have he : EndAlike S.dialect.profile e .settled .settled Unit
        (Render.document (S.refusing asked e) limit d inclusion) (Render.document S.mediaFree limit d inclusion) :=
      (EndAlike.mediaFree S ha).document hc limit d inclusion
    rw [renderUntil, run_renderFrom] at hr
    simp only [k, k', r, r', renderUntil, run_renderFrom]
    rcases hs ⟨.start fuse?, ∅⟩ TreeBuilder.empty with hf | hs
    · rw [hf, run_unwound_error] at hr
      exact (hr rfl).elim
    · rw [hs]
      exact (he _ _ _ _ ⟨rfl, rfl, rfl, .refl _ _⟩).unwound _ hr
  refine ⟨hp.1, hp.2, fun hok => ?_, hp.2.eq_iff⟩
  have h := hp.2
  rw [hok] at h
  exact h.spans_eq

/-! ### A picture that nobody shows -/

def decliningHandler : MediaHandler := fun _ _ => .done ⟨.ok .declined, false⟩

def decliningSetting : Setting := ⟨.ofKind .maui, Extensions.none.withMedia "image" decliningHandler⟩

theorem leaveAlone_declining (item : MediaItem) : decliningSetting.extensions.LeaveAlone item := by
  intro handler hh context b
  obtain ⟨key, hm⟩ := mem_of_mediaHandler? hh
  obtain rfl : handler = decliningHandler := congrArg Prod.snd (List.mem_singleton.1 hm)
  exact ⟨rfl, nofun, rfl⟩

def describedPicture : Node :=
  .multimedia [(MediaItem.ofUrl "cat.png").withContentType "image"] [.text "b"] false

/-- The text before the picture and the description of the picture are runs of one paragraph. They are in two labels
if the handler is asked, and in one if there is none. -/
theorem renderUntil_splits_label : (∀ item, decliningSetting.extensions.LeaveAlone item) ∧
    let d := Document.ofNodes [.paragraph [.text "a", describedPicture]]
    let r := (renderUntil decliningSetting 4 d true none).run TreeBuilder.empty
    let r' := (renderUntil decliningSetting.mediaFree 4 d true none).run TreeBuilder.empty
    r.1 = .ok () ∧ r'.1 = .ok () ∧ labels r.2.finish = 2 ∧ labels r'.2.finish = 1 :=
  ⟨leaveAlone_declining, by decide +kernel, by decide +kernel, by decide +kernel, by decide +kernel⟩

/-- A picture that comes first makes no difference. -/
theorem renderUntil_asks_in_vain_first :
    let d := Document.ofNodes [.paragraph [describedPicture, .text "a"]]
    let r := (renderUntil decliningSetting 4 d true none).run TreeBuilder.empty
    let r' := (renderUntil decliningSetting.mediaFree 4 d true none).run TreeBuilder.empty
    (∀ item, decliningSetting.extensions.LeaveAlone item) ∧
      ((renderUntil (decliningSetting.refusing (fun _ => true) .noOpenElement) 4 d true none).run
        TreeBuilder.empty).1 ≠ .error (.write .noOpenElement) ∧
      r.1 = r'.1 ∧ r.2.finish = r'.2.finish := by
  intro d r r'
  have hr : ((renderUntil (decliningSetting.refusing (fun _ => true) .noOpenElement) 4 d true none).run
      TreeBuilder.empty).1 ≠ .error (.write .noOpenElement) := by decide +kernel
  obtain ⟨hs, -, -, hi⟩ := renderUntil_asks_in_vain decliningSetting 4 d true none (fun _ => true)
    (fun item _ => leaveAlone_declining item) .noOpenElement hr
  exact ⟨leaveAlone_declining, hr, hs, hi.2 ⟨by decide +kernel, by decide +kernel, by decide +kernel⟩⟩

end XamlDoc
