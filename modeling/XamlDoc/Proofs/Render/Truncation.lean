import Mathlib.Control.Monad.Basic
import XamlDoc.Proofs.Markup.Limited
import XamlDoc.Proofs.Render.Congruence
import XamlDoc.Proofs.Render.Unwinding

/-!
# Truncated output

What a rendering to a limited sink leaves in it, beside the same rendering to an unlimited one. A rendering that
could not write everything ends with an error, with one exception: closing what a handler left open in a node that
it did not render is done whether it works or not.
-/

namespace XamlDoc

open Markup Gauged
open Markup.Xml (Sink TextWriter)
open Markup.Xml.TextWriter

/-- A limited sink gets the first bytes of the text that an unlimited one gets, as many as it has room for. If it
has room for all of them, then the rendering and the finish after it end in the same way. -/
theorem renderUntil_limited (setting : Setting) (limit : Nat) (d : Document) (inclusion : Bool)
    (fuse? : Option Nat) (layout : Xml.Layout) (n : Nat) :
    let m := renderUntil setting limit d inclusion fuse?
    let whole := output m (.new .unlimited layout)
    let short := output m (.new (.limited n) layout)
    let t := whole.2.sink.bytes
    short.2.sink.bytes = t.extract 0 (min n t.size) ∧ (t.size ≤ n → short.1 = whole.1) := by
  intro m whole short t
  have h : CutTo n whole short := (uniform_output m).cutTo (cut_new n layout)
  exact ⟨h.cut.bytes, h.same⟩

theorem renderUntil_limited_paragraph :
    let m := renderUntil bareSetting 4 shortParagraph true none
    let whole := output m (.new .unlimited .compact)
    70 < whole.2.sink.bytes.size ∧ whole.2.sink.bytes.size ≤ 1000 ∧
      (output m (.new (.limited 70) .compact)).2.sink.bytes = whole.2.sink.bytes.extract 0 70 ∧
      (output m (.new (.limited 1000) .compact)).1 = whole.1 := by
  intro m whole
  have hl : 70 < whole.2.sink.bytes.size := by decide +kernel
  have hu : whole.2.sink.bytes.size ≤ 1000 := by decide +kernel
  obtain ⟨hn, -⟩ := renderUntil_limited bareSetting 4 shortParagraph true none .compact 70
  obtain ⟨-, hw⟩ := renderUntil_limited bareSetting 4 shortParagraph true none .compact 1000
  have hm : min 70 whole.2.sink.bytes.size = 70 := Nat.min_eq_left (Nat.le_of_lt hl)
  exact ⟨hl, hu, hn.trans (congrArg _ hm), hw hu⟩

/-! ### Handlers that close what they opened -/

/-- A handler to which the output was refused says so. -/
def Extensions.Reports (x : Extensions) : Prop :=
  ∀ handler, x.Offers handler → ∀ (context : HandlerContext) (w : TextWriter),
    (∃ s ∈ (handler context).steps w, ∃ reason, (Writer.perform s.2 s.1).1 = .error (.output reason)) →
      ∃ e, ((handler context).run w).1.result = .error (.write e)

/-- The handler that closes what `handler` leaves open in a node that it leaves to its fallback, and says if that
fails. -/
def cleaning (handler : HandlerContext → Writing Handled) (context : HandlerContext) : Writing Handled :=
  .askDepth fun depth => (handler context).bind fun handled =>
    match handled.left? with
    | none => .done handled
    | some _ => (Writing.closeTo depth).bind fun
      | .ok _ => .done handled
      | .error e => .done { handled with result := .error (.write e) }

def Extensions.cleaning (x : Extensions) : Extensions :=
  { x with
    code := x.code.map fun e => (e.1, fun b => XamlDoc.cleaning (e.2 b))
    media := x.media.map fun e => (e.1, fun item => XamlDoc.cleaning (e.2 item)) }

def Setting.cleaning (S : Setting) : Setting := { S with extensions := S.extensions.cleaning }

theorem offers_cleaning {x : Extensions} {handler : HandlerContext → Writing Handled}
    (h : x.cleaning.Offers handler) : ∃ own, x.Offers own ∧ handler = cleaning own := by
  cases h with
  | code b hm =>
    obtain ⟨e, he, heq⟩ := List.mem_map.1 hm
    cases heq
    exact ⟨_, .code b he, rfl⟩
  | media item hm =>
    obtain ⟨e, he, heq⟩ := List.mem_map.1 hm
    cases heq
    exact ⟨_, .media item he, rfl⟩

theorem codeHandler_cleaning (x : Extensions) (language : String) : x.cleaning.codeHandler? language =
    (x.codeHandler? language).map fun h b => XamlDoc.cleaning (h b) :=
  lookup_map (fun (h : CodeHandler) b => XamlDoc.cleaning (h b)) _ _

theorem mediaHandler_cleaning (x : Extensions) (type : String) : x.cleaning.mediaHandler? type =
    (x.mediaHandler? type).map fun h item => XamlDoc.cleaning (h item) :=
  x.mediaHandler?_mapMedia (fun h item => XamlDoc.cleaning (h item)) type

section

variable {σ : Type} [Writer σ] [Gauged σ]

/-- On a writer that works, two renderings do the same. -/
def Alike (σ : Type) [Writer σ] [Gauged σ] (α : Type) (m m' : Rendering α) : Prop :=
  ∀ (p : Progress) (w : σ), Works w → Writing.run (m p) w = Writing.run (m' p) w

theorem Alike.refl {α : Type} (m : Rendering α) : Alike σ α m m := fun _ _ _ => rfl

theorem Alike.bind {α β : Type} {m m' : Rendering α} {f f' : α → Rendering β} (hm : Alike σ α m m')
    (hf : ∀ a, Alike σ β (f a) (f' a)) : Alike σ β (m >>= f) (m' >>= f') := by
  intro p w hw
  rw [Rendering.bind_apply, Rendering.bind_apply, Writing.run_bind, Writing.run_bind, ← hm p w hw]
  cases (Writing.run (m p) w).1 with
  | ok r => exact hf r.1 r.2 _ (works_run _ hw)
  | error e => rfl

theorem Alike.congruent (profile : Profile) : Congruent profile fun _ _ => Alike σ where
  pass _ _ _ := Alike.refl _
  andThen := Alike.bind
  enter h := h
  leave h := h
  append _ _ := Alike.refl _
  comment _ := Alike.refl _
  flush := Alike.refl _
  write _ := Alike.refl _
  depth := Alike.refl _

theorem Alike.offered (handler : HandlerContext → Writing Handled) {s s' : Scope} (hd : s'.dialect = s.dialect)
    (alignment : Alignment) {fallback fallback' : List String → Rendering Unit}
    (hf : ∀ messages, Alike σ Unit (fallback messages) (fallback' messages)) :
    Alike σ Unit (Render.offered handler s alignment fallback)
      (Render.offered (cleaning handler) s' alignment fallback') := by
  intro p w hw
  rw [Render.run_offered, Render.run_offered, hd]
  simp only [cleaning, Writing.run, Writing.run_bind]
  have hw' : Works ((handler ⟨alignment, s.dialect⟩).run w).2 := works_run _ hw
  generalize (handler ⟨alignment, s.dialect⟩).run w = r at hw' ⊢
  obtain ⟨handled, w'⟩ := r
  cases hl : handled.left? with
  | none => simp only [Writing.run, hl]
  | some messages =>
    -- the elements left open are closed once, by the handler or after it
    have hc := closeTo_min hw' (Writer.depth w)
    have hn : Writer.depth ((Writing.closeTo (Writer.depth w)).run w').2 ≤ Writer.depth w := by
      rw [hc.depth]
      exact Nat.min_le_right _ _
    simp only [Writing.run_bind, hc.answer, Writing.run, hl, Writing.run_closeTo_of_le hn]
    exact hf messages _ _ (works_run _ hw')

theorem Alike.cleaning (S : Setting) : Setting.Related (fun _ _ => Alike σ) S S.cleaning where
  dialect := rfl
  emojiSource := rfl
  evaluator := rfl
  media {s s'} st items {alternative alternative'} hs hs' ha := by
    subst hs
    have hd : s'.dialect = s.dialect := by rw [Scope.dialect, hs']; rfl
    refine (congruent _).media hd (fun h item => XamlDoc.cleaning (h item)) st items (fun type => ?_)
      (fun h item _ _ hf => Alike.offered (h item) hd _ hf) ha
    rw [Scope.extensions, hs']
    exact mediaHandler_cleaning _ type
  code {s s'} st b hs hs' := by
    subst hs
    have hd : s'.dialect = s.dialect := by rw [Scope.dialect, hs']; rfl
    refine (congruent _).code hd (fun h b => XamlDoc.cleaning (h b)) st b (fun language => ?_) fun h _ _ hf =>
      Alike.offered (h b) hd _ hf
    rw [Scope.extensions, hs']
    exact codeHandler_cleaning _ language

/-- Cleaning handlers make no difference where everything can be written. -/
theorem run_renderUntil_cleaning (S : Setting) (limit : Nat) (d : Document) (inclusion : Bool)
    (fuse? : Option Nat) {w : σ} (hw : Works w) :
    (renderUntil S.cleaning limit d inclusion fuse?).run w = (renderUntil S limit d inclusion fuse?).run w := by
  have hd : Alike σ Unit (Render.document S limit d inclusion) (Render.document S.cleaning limit d inclusion) :=
    (Alike.cleaning S).document (Alike.congruent _) limit d inclusion
  rw [renderUntil, renderUntil, run_renderFrom, run_renderFrom, hd _ w hw]

end

/-! ### Renderings that end well -/

/-- Where there was room enough at the start and the rendering ends well, there was room for all of it. -/
def Complete (α : Type) (m : Rendering α) : Prop :=
  ∀ (p : Progress) (n : Nat) (u : TextWriter), u.sink.room? = none → u.sink.bytes.size ≤ n →
    ∀ r, (Writing.run (m p) (u.cut n)).1 = .ok r → (Writing.run (m p) u).2.sink.bytes.size ≤ n

namespace Complete

variable {α β : Type}

theorem bind {m : Rendering α} {f : α → Rendering β} (hm : Complete α m) (hf : ∀ a, Complete β (f a)) :
    Complete β (m >>= f) := by
  intro p n u hu hn r hr
  rw [Rendering.bind_apply, Writing.run_bind] at hr ⊢
  obtain ⟨hc, ha⟩ := (uniform_run (m p)).cut n u hu
  cases hs : (Writing.run (m p) (u.cut n)).1 with
  | error e =>
    rw [hs] at hr
    cases hr
  | ok q =>
    have hq := hm p n u hu hn q hs
    rw [hs, hc.same hq] at hr
    rw [← ha hq, hs]
    exact hf q.1 q.2 n _ hc.unlimited hq r hr

theorem quiet {m : Rendering α} (h : ∀ p, ∃ r, m p = .done r) : Complete α m := by
  intro p n u hu hn _ _
  obtain ⟨r, hr⟩ := h p
  rw [hr]
  exact hn

theorem write {w : Writing (Except WriteError Unit)} (hw : Honest w.run) :
    Complete Unit (Rendering.ofWriting w) := by
  intro p n u hu hn r hr
  rw [Rendering.ofWriting, Writing.run_bind] at hr ⊢
  have hs : ((w.run u).2.sink.bytes.size ≤ n) := by
    refine Nat.le_of_not_lt fun ho => ?_
    rw [hw.tells n u hu hn ho] at hr
    cases hr
  cases (w.run u).1 with
  | ok a => exact hs
  | error e => exact hs

theorem emit (cs : List Call) : Complete Unit (Rendering.emit cs) := write (honest_calls cs)

theorem askDepth {m : Nat → Rendering α} (h : ∀ depth, Complete α (m depth)) :
    Complete α (Rendering.ofQuiet Writing.depth >>= m) := by
  intro p n u hu hn r hr
  rw [Rendering.bind_apply] at hr ⊢
  exact h (Writer.depth u) p n u hu hn r hr

/-- A handler that closes what it opened leaves a node to its fallback only if all it wrote did fit. -/
theorem cleaning_fits {own : HandlerContext → Writing Handled} {context : HandlerContext}
    (ho : ∀ w : TextWriter, (∃ s ∈ (own context).steps w, ∃ reason,
      (Writer.perform s.2 s.1).1 = .error (.output reason)) →
        ∃ e, ((own context).run w).1.result = .error (.write e))
    {n : Nat} {u : TextWriter} (hu : u.sink.room? = none) (hn : u.sink.bytes.size ≤ n) {r : Handled}
    (hr : ((cleaning own context).run (u.cut n)).1 = r) :
    ((cleaning own context).run u).2.sink.bytes.size ≤ n ∨ ∃ e, r.result = .error (.write e) := by
  by_cases hm : n < ((own context).run u).2.sink.bytes.size
  · obtain ⟨s, hs, hf⟩ := exists_refused (own context) hu hn hm
    obtain ⟨e, he⟩ := ho (u.cut n) ⟨s, hs, _, hf⟩
    have hl : ((own context).run (u.cut n)).1.left? = none := by rw [Handled.left?, he]
    rw [cleaning, Writing.run, Writing.run_bind, hl] at hr
    subst hr
    exact .inr ⟨e, he⟩
  · have hm := Nat.le_of_not_lt hm
    obtain ⟨hc, ha⟩ := (uniform_run (own context)).cut n u hu
    have hd : Writer.depth (u.cut n) = Writer.depth u := rfl
    rw [cleaning, Writing.run, Writing.run_bind, ha hm, hc.same hm, hd] at hr
    rw [cleaning, Writing.run, Writing.run_bind]
    cases hl : ((own context).run u).1.left? with
    | none => exact .inl hm
    | some messages =>
      simp only [hl, Writing.run_bind] at hr ⊢
      by_cases hz : n < ((Writing.closeTo (Writer.depth u)).run ((own context).run u).2).2.sink.bytes.size
      · rw [(honest_closeTo (Writer.depth u)).tells n _ hc.unlimited hm hz] at hr
        subst hr
        exact .inr ⟨_, rfl⟩
      · refine .inl ?_
        split <;> exact Nat.le_of_not_lt hz

/-- A handler that closes what it opened has nothing left open when it leaves a node to its fallback. -/
theorem cleaning_depth {own : HandlerContext → Writing Handled} {context : HandlerContext} {w : TextWriter}
    {messages : List String} (h : ((cleaning own context).run w).1.left? = some messages) :
    Writer.depth ((cleaning own context).run w).2 ≤ Writer.depth w := by
  rw [cleaning, Writing.run, Writing.run_bind] at h ⊢
  cases hl : ((own context).run w).1.left? with
  | none =>
    rw [hl] at h
    rw [Writing.run, hl] at h
    cases h
  | some ms =>
    simp only [hl, Writing.run_bind] at h ⊢
    generalize hw' : ((own context).run w).2 = w' at h ⊢
    cases hr : ((Writing.closeTo (Writer.depth w)).run w').1 with
    | error e =>
      rw [hr] at h
      cases h
    | ok _ => exact depth_closeTo_le hr

theorem taken (depth : Nat) (h : Handled) {q : Progress} {n : Nat} {u : TextWriter} (hu : u.sink.room? = none)
    (hn : u.sink.bytes.size ≤ n) {r : Unit × Progress}
    (hr : ((Render.taken depth h q).run (u.cut n)).1 = .ok r) :
    ((Render.taken depth h q).run u).2.sink.bytes.size ≤ n := by
  have hc : Complete Unit (Rendering.ofWriting (Writing.closeTo depth)) := write (honest_closeTo depth)
  rcases h with ⟨(_ | _ | _) | _, cancels⟩
  · cases hr
  all_goals exact hc q n u hu hn r hr

theorem offered {handler : HandlerContext → Writing Handled} {x : Extensions} (hx : x.Reports)
    (ho : x.cleaning.Offers handler) (s : Scope) (alignment : Alignment)
    {fallback : List String → Rendering Unit} (hf : ∀ messages, Complete Unit (fallback messages)) :
    Complete Unit (Render.offered handler s alignment fallback) := by
  intro p n u hu hn r hr
  obtain ⟨own, hown, rfl⟩ := offers_cleaning ho
  let context : HandlerContext := ⟨alignment, s.dialect⟩
  have hd : Writer.depth (u.cut n) = Writer.depth u := rfl
  obtain ⟨hc, ha⟩ := (uniform_run (cleaning own context)).cut n u hu
  rw [Render.run_offered, hd] at hr
  rw [Render.run_offered]
  rcases cleaning_fits (hx own hown context) hu hn rfl with hm | ⟨e, he⟩
  · -- all that the handler wrote did fit, so both writers are the same after it
    simp only [context] at ha hc hm
    simp only [ha hm, hc.same hm] at hr
    have hl (messages : List String)
        (h : ((cleaning own ⟨alignment, s.dialect⟩).run u).1.left? = some messages) :
        Writer.depth ((cleaning own ⟨alignment, s.dialect⟩).run u).2 ≤ Writer.depth u := cleaning_depth h
    generalize (cleaning own ⟨alignment, s.dialect⟩).run u = h at hc hm hr hl ⊢
    cases hh : h.1.left? with
    | none =>
      simp only [hh] at hr ⊢
      exact taken _ _ hc.unlimited hm hr
    | some messages =>
      have hk : Writer.depth (h.2.cut n) ≤ Writer.depth u := hl messages hh
      simp only [hh, Writing.run_closeTo_of_le hk, Writing.run_closeTo_of_le (hl messages hh)] at hr ⊢
      exact hf messages _ n h.2 hc.unlimited hm r hr
  · have hl : ((cleaning own context).run (u.cut n)).1.left? = none := by rw [Handled.left?, he]
    simp only [context] at hl he
    simp only [hl, Render.taken, he] at hr
    cases hr

/-- With handlers that close what they opened, no failure to write is passed over. -/
theorem closed {S : Setting} (hx : S.extensions.Reports) : Closed S.cleaning Complete fun _ _ => True where
  toCompositional := Bracketed.compositional {
    done a := quiet fun p => ⟨.ok (a, p), rfl⟩
    andThen := bind
    append _ _ := quiet fun _ => ⟨_, rfl⟩
    comment _ := quiet fun _ => ⟨_, rfl⟩
    flush p := emit _ { p with runs := ∅ }
    whole _ _ := emit _
    element _ _ hc := bind (emit _) fun _ => bind hc fun _ => emit _
    enclosed _ _ hc := askDepth fun depth => bind (emit _) fun _ => bind hc fun _ => write (honest_closeTo depth) }
  passes := Html.closed_true
  visit hm p n u hu hn r hr := by
    have hv := Rendering.visit_of_ok hr
    rw [hv] at hr ⊢
    exact hm _ n u hu hn r hr
  cancelIf _ _ := quiet fun _ => ⟨_, rfl⟩
  tooDeep := quiet fun _ => ⟨_, rfl⟩
  ofPass _ := quiet (Rendering.ofPass_eq_done _)
  askNumbering hf p := hf _ p
  setNumbering _ := quiet fun _ => ⟨_, rfl⟩
  offered ho hf := offered hx ho _ _ hf

end Complete

/-- The end of an element does not fit if something before it did not. -/
theorem Complete.element (t : Tag) (content : Rendering Unit) : Complete Unit (Rendering.element t content) := by
  intro p n u hu hn r hr
  let before : Rendering Unit := do
    Rendering.emit (Call.ofTag t)
    content
  have he : Rendering.element t content = before >>= fun _ => Rendering.emit [.close] := (bind_assoc ..).symm
  rw [he, Rendering.bind_apply, Writing.run_bind] at hr ⊢
  obtain ⟨hc, ha⟩ := (uniform_run (before p)).cut n u hu
  cases hb : (Writing.run (before p) (u.cut n)).1 with
  | error e =>
    rw [hb] at hr
    cases hr
  | ok q =>
    rw [hb] at hr
    have hm : (Writing.run (before p) u).2.sink.bytes.size ≤ n := by
      refine Nat.le_of_not_lt fun ho => ?_
      have hf := close_of_over hc ho
      simp only [Rendering.emit, Rendering.ofWriting, Writing.calls, Writing.bind, Writing.run] at hr
      cases ha : (Writer.perform .close (Writing.run (before p) (u.cut n)).2).1 with
      | ok a => exact hf ha
      | error e =>
        rw [ha] at hr
        cases hr
    rw [← ha hm, hb]
    rw [hc.same hm] at hr
    exact emit [.close] q.2 n _ hc.unlimited hm r hr

theorem Complete.renderUntil {S : Setting} {limit : Nat} {d : Document} {inclusion : Bool} {fuse? : Option Nat}
    (h : Complete Unit (Render.document S limit d inclusion)) {n : Nat} {u : TextWriter}
    (hu : u.sink.room? = none) (hn : u.sink.bytes.size ≤ n)
    (hr : ((renderUntil S limit d inclusion fuse?).run (u.cut n)).1 = .ok ()) :
    ((renderUntil S limit d inclusion fuse?).run u).2.sink.bytes.size ≤ n := by
  let m := Render.document S limit d inclusion ⟨.start fuse?, ∅⟩
  have hw (w : TextWriter) : (XamlDoc.renderUntil S limit d inclusion fuse?).run w =
      (unwound (Writer.depth w) (Writing.run m w).1).run (Writing.run m w).2 := run_renderFrom ..
  rw [hw] at hr ⊢
  cases hs : (Writing.run m (u.cut n)).1 with
  | error e =>
    rw [hs, run_unwound_error] at hr
    cases hr
  | ok r =>
    have hm := h _ n u hu hn r hs
    rw [← ((uniform_run m).cut n u hu).same hm, hs]
    exact hm

/-- Once the rendering is over, the finish after it says if its ends do not fit. -/
theorem output_fits_iff {m : Writing (Except RenderError Unit)} {u : TextWriter} (hu : u.sink.room? = none) {n : Nat}
    (hf : (output m (u.cut n)).1.2 = .ok ()) :
    (output m (u.cut n)).2.sink.bytes = (output m u).2.sink.bytes ↔ (m.run u).2.sink.bytes.size ≤ n := by
  have hc : CutTo n (output m u) (output m (u.cut n)) := (uniform_output m).cut n u hu
  have hb : (output m (u.cut n)).2.sink.bytes = (output m u).2.sink.bytes.extract 0 n := by
    rw [hc.cut.sink]
    rfl
  rw [hb]
  constructor
  · intro h
    have hs := congrArg ByteArray.size h
    rw [ByteArray.size_extract] at hs
    have hg : (m.run u).2.sink.bytes.size ≤ (output m u).2.sink.bytes.size := honest_finish.grows _
    omega
  · intro hm
    obtain ⟨hr, -⟩ := (uniform_run m).cut n u hu
    refine Sink.extract_of_size_le (Nat.le_of_not_lt fun ho => ?_)
    have ht := honest_finish.tells n _ hr.unlimited hm ho
    rw [← hr.same hm] at ht
    rw [show (output m (u.cut n)).1.2 = (m.run (u.cut n)).2.finish.1 from rfl, ht] at hf
    cases hf

/-- Where a rendering and the finish after it end well although the output is limited, all of the text is there
exactly if the rendering ends well with handlers that close what they leave open and say if that fails. In the
root element of a document the text is never cut off. -/
theorem renderUntil_writes_all_iff (S : Setting) (hx : S.extensions.Reports) (limit : Nat) (d : Document)
    (inclusion : Bool) (fuse? : Option Nat) (layout : Xml.Layout) (n : Nat) :
    let m := renderUntil S limit d inclusion fuse?
    let whole := output m (.new .unlimited layout)
    let narrow := TextWriter.new (.limited n) layout
    (output m narrow).1 = (.ok (), .ok ()) →
      ((output m narrow).2.sink.bytes = whole.2.sink.bytes ↔
        ((renderUntil S.cleaning limit d inclusion fuse?).run narrow).1 = .ok ()) ∧
      (inclusion = false → d.metadata.bodyOnly = false →
        (output m narrow).2.sink.bytes = whole.2.sink.bytes) := by
  intro m whole narrow
  let u := TextWriter.new .unlimited layout
  have hu : u.sink.room? = none := rfl
  have hz : u.sink.bytes.size ≤ n := Nat.zero_le _
  have hcut : narrow = u.cut n := by
    show _ = { u with sink := Sink.unlimited.cut n }
    rw [Sink.cut_unlimited]
    rfl
  have hw : u.Works := ⟨rfl, rfl⟩
  rw [hcut]
  intro hok
  have hr : (m.run (u.cut n)).1 = .ok () := congrArg Prod.fst hok
  have hall := output_fits_iff (m := m) hu (congrArg Prod.snd hok)
  let cleaned := renderUntil S.cleaning limit d inclusion fuse?
  have hs : cleaned.run u = m.run u := run_renderUntil_cleaning S limit d inclusion fuse? hw
  have hclean : (m.run u).2.sink.bytes.size ≤ n ↔ (cleaned.run (u.cut n)).1 = .ok () := by
    constructor
    · intro hm
      have hc := ((uniform_run cleaned).cut n u hu).same
      rw [hs] at hc
      rw [hc hm, ← ((uniform_run m).cut n u hu).same hm]
      exact hr
    · intro hc
      rw [← hs]
      exact ((Complete.closed hx).document limit d inclusion).renderUntil hu hz hc
  refine ⟨hall.trans hclean, fun hi hb => hall.2 ?_⟩
  have he : Complete Unit (Render.document S limit d inclusion) := by
    rw [Render.document, hi, hb]
    exact Complete.element _ _
  exact he.renderUntil hu hz hr

/-! ### A handler that leaves an element open -/

/-- A handler that begins an element, and then fails. -/
def startingHandler : MediaHandler := fun _ _ => (Writing.call (.element "A")).bind fun
  | .ok _ => .done ⟨.error (.failed "boom"), false⟩
  | .error e => .done ⟨.error (.write e), false⟩

def startingSetting : Setting := ⟨.ofKind .maui, Extensions.none.withMedia "image" startingHandler⟩

def bareImage : Document :=
  .ofNodes [.multimedia [(MediaItem.ofUrl "x").withContentType "image"] [] false]

theorem reports_starting : startingSetting.extensions.Reports := by
  rintro handler ho context w ⟨s, hs, reason, hr⟩
  cases ho with
  | code b hm => cases hm
  | media item hm =>
    obtain rfl : _ = startingHandler := (Prod.mk.inj (List.mem_singleton.1 hm)).2
    simp only [startingHandler, Writing.call, Writing.bind, Writing.steps] at hs
    rcases List.mem_cons.1 hs with rfl | hs
    · refine ⟨.output reason, ?_⟩
      simp only [startingHandler, Writing.call, Writing.bind, Writing.run, hr]
    · split at hs <;> cases hs

def startingOutput (sink : Sink) : (Except RenderError Unit × Except WriteError Unit) × TextWriter :=
  output (renderUntil startingSetting 4 bareImage true none) (.new sink .compact)

/-- The end of the element does not fit, which nobody is told. -/
theorem renderUntil_truncates_silently : (startingOutput (.limited 1)).1 = (.ok (), .ok ()) ∧
    (startingOutput (.limited 1)).2.sink.bytes = "<".toUTF8 ∧
      (startingOutput .unlimited).2.sink.bytes = "<A/>".toUTF8 :=
  ⟨by decide +kernel, by decide +kernel, by decide +kernel⟩

theorem renderUntil_writes_all_iff_starting : startingSetting.extensions.Reports ∧
    (startingOutput (.limited 1)).1 = (.ok (), .ok ()) ∧
      ((startingOutput (.limited 1)).2.sink.bytes = (startingOutput .unlimited).2.sink.bytes ↔
        ((renderUntil startingSetting.cleaning 4 bareImage true none).run
          (TextWriter.new (.limited 1) .compact)).1 = .ok ()) ∧
      ((renderUntil startingSetting.cleaning 4 bareImage true none).run
        (TextWriter.new (.limited 1) .compact)).1 = .error (.write (.output Sink.full)) := by
  have hok : (startingOutput (.limited 1)).1 = (.ok (), .ok ()) := by decide +kernel
  obtain ⟨hi, -⟩ :=
    renderUntil_writes_all_iff startingSetting reports_starting 4 bareImage true none .compact 1 hok
  exact ⟨reports_starting, hok, hi, by decide +kernel⟩

end XamlDoc
