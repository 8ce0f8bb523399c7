import XamlDoc.Proofs.Markup.TextState
import XamlDoc.Proofs.Render.Account

/-!
# Balance of elements

A rendering closes what it opens, on whichever path it ends, and leaves alone what was open before.
Handlers may leave elements open as long as they close none that they did not open. Without other
handlers than the one for images, the calls of a rendering write whole contents.
-/

namespace XamlDoc

open Markup Gauged

variable {x : Extensions} {σ : Type} [Writer σ] [Gauged σ]

/-! ### Handlers -/

/-- The handlers close no element that they did not open. -/
def Extensions.Tidy (x : Extensions) (σ : Type) [Writer σ] [Gauged σ] : Prop :=
  ∀ handler, x.Offers handler → ∀ (context : HandlerContext) (w : σ), Works w →
    ∀ s ∈ (handler context).steps w, s.2 = .close → ¬ Refused s →
      Writer.depth w < Writer.depth s.1

/-- There is no handler but the one for images. -/
def Extensions.BuiltIn (x : Extensions) : Prop := x.code = [] ∧ ∀ e ∈ x.media, e.2 = imageHandler

theorem le_depth_perform {c : Call} {g : Gauge} {n : Nat} (hn : n ≤ g.depth)
    (h : c = .close → (g.perform c).1 = .ok () → n < g.depth) : n ≤ (g.perform c).2.depth := by
  rcases g with ⟨depth, accepts⟩
  cases c with
  | element name => exact Nat.le_succ_of_le hn
  | attr name value =>
    simp only [Gauge.perform]
    split <;> exact hn
  | text t | raw t | comment t => exact hn
  | close =>
    cases depth with
    | zero => exact hn
    | succ depth => exact Nat.le_of_lt_succ (h rfl rfl)

theorem le_depth_run {α : Type} {m : Writing α} {n : Nat} {w : σ} (hw : Works w)
    (hn : n ≤ Writer.depth w)
    (h : ∀ s ∈ m.steps w, s.2 = .close → ¬ Refused s → n < Writer.depth s.1) :
    n ≤ Writer.depth (m.run w).2 := by
  induction m generalizing w with
  | done a => exact hn
  | perform c next ih =>
    have hc := h (w, c) (List.mem_cons_self ..)
    have hd : n ≤ Writer.depth (Writer.perform c w).2 := by
      rw [← depth_gauge, gauge_perform c hw]
      refine le_depth_perform ((depth_gauge w).symm ▸ hn) fun hcl ha => ?_
      rw [depth_gauge]
      exact hc hcl fun hr => hr (answer_eq c hw ▸ ha)
    exact ih _ (works_perform c hw) hd fun s hs => h s (List.mem_cons_of_mem _ hs)
  | askDepth next ih => exact ih _ hw hn h

/-! ### Any handlers -/

/-- Steps of a run that are accepted or those of a handler, and what the handlers came to. -/
inductive Mixed (x : Extensions) (w : σ) : List (Step σ) → List Handled → σ → Prop where
  | nil : Mixed x w [] [] w
  | own {a : List (Step σ)} {hs : List Handled} {w' : σ} {c : Call} :
    Mixed x w a hs w' → ¬ Refused (w', c) →
      Mixed x w (a ++ [(w', c)]) hs (Writer.perform c w').2
  | handler {a : List (Step σ)} {hs : List Handled} {w' : σ}
    {handler : HandlerContext → Writing Handled} (context : HandlerContext) :
    Mixed x w a hs w' → x.Offers handler →
      Mixed x w (a ++ (handler context).steps w') (hs ++ [((handler context).run w').1])
        ((handler context).run w').2

namespace Mixed

omit [Gauged σ] in
theorem append {w w' w'' : σ} {a b : List (Step σ)} {hs ks : List Handled} (ha : Mixed x w a hs w')
    (hb : Mixed x w' b ks w'') : Mixed x w (a ++ b) (hs ++ ks) w'' := by
  induction hb with
  | nil => simpa using ha
  | own _ hc ih =>
    rw [← List.append_assoc]
    exact ih.own hc
  | handler context _ ho ih =>
    rw [← List.append_assoc, ← List.append_assoc]
    exact ih.handler context ho

omit [Gauged σ] in
theorem ofRun {α : Type} {m : Writing α} {w : σ} (h : ∀ s ∈ m.steps w, ¬ Refused s) :
    Mixed x w (m.steps w) [] (m.run w).2 := by
  induction m generalizing w with
  | done a => exact nil
  | perform c next ih =>
    have hc : Mixed x w [(w, c)] [] (Writer.perform c w).2 :=
      nil.own (h (w, c) (List.mem_cons_self ..))
    exact hc.append (ih _ fun s hs => h s (List.mem_cons_of_mem _ hs))
  | askDepth next ih => exact ih _ h

end Mixed

/-- The account with arbitrary handlers that close nothing of others. -/
def Account.mixed (hx : x.Tidy σ) : Account x σ where
  Leaves n w a hs w' := Mixed x w a hs w' ∧ Writer.depth w' = Writer.depth w + n
  depth h := h.2
  nil w := ⟨.nil, rfl⟩
  append ha hb := ⟨ha.1.append hb.1, by rw [hb.2, ha.2, Nat.add_assoc]⟩
  opening hc hw :=
    have h := hc.accepted hw
    ⟨.ofRun h.none_refused, h.depth⟩
  close {n w w' a hs} hl hw := by
    have h := closeTo_accepted hw (hl.2 ▸ Nat.le_add_right _ n)
    obtain ⟨hr, hs'⟩ := closes_closeTo (Writer.depth w) n w' hl.2
    rw [← hr, ← hs']
    have hm := hl.1.append (.ofRun h.none_refused)
    rw [List.append_nil] at hm
    exact ⟨hm, h.depth⟩
  handler {handler w} context ho hw := by
    have hd : Writer.depth w ≤ Writer.depth ((handler context).run w).2 :=
      le_depth_run hw (Nat.le_refl _) (hx handler ho context w hw)
    exact ⟨_, Mixed.nil.handler context ho, (Nat.add_sub_of_le hd).symm⟩

/-! ### Built-in handlers -/

/-- The handler for images writes a whole image or nothing. -/
theorem imageHandler_run (item : MediaItem) (context : HandlerContext) {w : σ} (hw : Works w) :
    Whole ((imageHandler item context).made w) ∧
      Writer.depth ((imageHandler item context).run w).2 = Writer.depth w ∧
      (∀ s ∈ (imageHandler item context).steps w, ¬ Refused s) ∧
      ∀ e, ((imageHandler item context).run w).1.result ≠ .error e := by
  rw [imageHandler]
  split
  · exact ⟨Whole.nil, rfl, fun s hs => (List.not_mem_nil hs).elim, fun e h => by cases h⟩
  · have hi := item.image.calls_whole
    have h := hi.accepted hw
    rw [Writing.made_bind, Writing.run_bind, Writing.steps_bind, h.answer, h.made]
    refine ⟨?_, h.depth, fun s hs => ?_, fun e he => by cases he⟩
    · exact hi.append Whole.nil
    · exact h.none_refused s (by simpa using hs)

theorem imageHandler_plain (item : MediaItem) (context : HandlerContext) {w : σ} (hw : Works w) :
    Plain ((imageHandler item context).made w) := by
  rw [imageHandler]
  split
  · simp [Avoids]
  · have h := item.image.calls_whole.accepted hw
    rw [Writing.made_bind, h.answer, h.made]
    exact avoids_append item.image.calls_plain (by simp [Avoids])

theorem Extensions.BuiltIn.offers (hx : x.BuiltIn) {handler : HandlerContext → Writing Handled}
    (ho : x.Offers handler) : ∃ item, handler = imageHandler item := by
  cases ho with
  | code b hm =>
    rw [hx.1] at hm
    cases hm
  | media item hm => exact ⟨item, congrFun (hx.2 _ hm) item⟩

theorem Extensions.BuiltIn.tidy (hx : x.BuiltIn) : x.Tidy σ := by
  intro handler ho context w hw s hs hc _
  obtain ⟨item, rfl⟩ := hx.offers ho
  exact (imageHandler_run item context hw).1.above hw s hs (hc ▸ trivial)

/-- The account without other handlers than the one for images. -/
def Account.whole (hx : x.BuiltIn) : Account x σ where
  Leaves n w a hs w' := Writer.depth w' = Writer.depth w + n ∧ Opening n (a.map Prod.snd) ∧
    (∀ s ∈ a, ¬ Refused s) ∧ ∀ handled ∈ hs, ∀ e, handled.result ≠ .error (.write e)
  depth h := h.1
  nil w := ⟨rfl, .nil, fun s hs => (List.not_mem_nil hs).elim, fun k hk => (List.not_mem_nil hk).elim⟩
  append ha hb := by
    obtain ⟨hd, ho, hr, hk⟩ := ha
    obtain ⟨hd', ho', hr', hk'⟩ := hb
    refine ⟨by rw [hd', hd, Nat.add_assoc], List.map_append ▸ ho.append ho', ?_, ?_⟩
    · exact fun s hs => (List.mem_append.1 hs).elim (hr s) (hr' s)
    · exact fun k hs => (List.mem_append.1 hs).elim (hk k) (hk' k)
  opening {n cs w} hc hw := by
    have h := hc.accepted hw
    have hm : ((Writing.calls cs).steps w).map Prod.snd = cs := h.made
    exact ⟨h.depth, hm.symm ▸ hc, h.none_refused, fun k hk => (List.not_mem_nil hk).elim⟩
  close {n w w' a hs} hl hw := by
    obtain ⟨hd, ho, hr, hk⟩ := hl
    have h := closeTo_accepted hw (hd ▸ Nat.le_add_right _ n)
    obtain ⟨he, hs'⟩ := closes_closeTo (Writer.depth w) n w' hd
    rw [← he, ← hs']
    have hm : ((Writing.closeTo (Writer.depth w)).steps w').map Prod.snd = List.replicate n .close := by
      rw [← Nat.add_sub_cancel_left (n := Writer.depth w) (m := n), ← hd]
      exact h.made
    refine ⟨h.depth, ?_, fun s hs => ?_, hk⟩
    · rw [List.map_append, hm]
      exact Opening.ofWhole (ho.close Whole.nil)
    · exact (List.mem_append.1 hs).elim (hr s) (h.none_refused s)
  handler {handler w} context ho hw := by
    obtain ⟨item, rfl⟩ := hx.offers ho
    obtain ⟨hm, hd, hr, he⟩ := imageHandler_run item context hw
    refine ⟨0, hd, Opening.ofWhole hm, hr, fun k hk e => ?_⟩
    rw [List.mem_singleton.1 hk]
    exact he _

/-! ### Balance -/

/-- The calls of a rendering that nothing but itself could disturb. -/
structure Faultless (m : Writing (Except RenderError Unit)) (w : σ) : Prop where
  /-- They write contents from beginning to end, and no element carries two attributes of one name. -/
  whole : Whole (m.made w)
  /-- None closes an element that was open before, or adds an attribute to it. -/
  spares : ∀ s ∈ m.steps w, s.2.Touches → Writer.depth w < Writer.depth s.1
  accepted : ∀ s ∈ m.steps w, ¬ Refused s
  error {e : RenderError} : (m.run w).1 = .error e → e = .cancelled ∨ e = .tooDeep

/-- What a rendering does to a writer. -/
structure Balanced (x : Extensions) (m : Writing (Except RenderError Unit)) (w : σ) : Prop where
  depth : Writer.depth (m.run w).2 = Writer.depth w
  /-- Only handlers make calls that are refused, and only they return errors of the writer. -/
  blameless : ∃ hs, Mixed x w (m.steps w) hs (m.run w).2 ∧
    ∀ e, (m.run w).1 = .error e → e.Excused hs

theorem faultless_renderUntil {setting : Setting} (hx : setting.extensions.BuiltIn) (limit : Nat)
    (d : Document) (inclusion : Bool) (fuse? : Option Nat) {w : σ} (hw : Works w) :
    Faultless (renderUntil setting limit d inclusion fuse?) w := by
  obtain ⟨hs, ⟨-, ho, ha, hk⟩, he⟩ :=
    (Account.whole hx).renderUntil limit d inclusion fuse? hw
  have hm : Whole ((renderUntil setting limit d inclusion fuse?).made w) := by
    simpa [Writing.made] using ho.close Whole.nil
  refine ⟨hm, hm.above hw, ha, fun {e} hr => ?_⟩
  have hf := he e hr
  cases e with
  | cancelled => exact .inl rfl
  | tooDeep => exact .inr rfl
  | write e =>
    obtain ⟨handled, hm, hw⟩ := hf
    exact (hk handled hm e hw).elim

theorem balanced_renderUntil {setting : Setting} (hx : setting.extensions.Tidy σ) (limit : Nat)
    (d : Document) (inclusion : Bool) (fuse? : Option Nat) {w : σ} (hw : Works w) :
    Balanced setting.extensions (renderUntil setting limit d inclusion fuse?) w := by
  obtain ⟨hs, hm, he⟩ := (Account.mixed hx).renderUntil limit d inclusion fuse? hw
  exact ⟨hm.2, hs, hm.1, he⟩

/-- Whatever is open before, and at whatever moment the token is fired, a rendering with handlers that
close only what they opened is balanced, on a tree and on an unfinished text whose sink takes
everything. Without other handlers than the one for images it is faultless as well. -/
theorem renderUntil_balanced (setting : Setting) (limit : Nat) (d : Document) (inclusion : Bool)
    (fuse? : Option Nat) :
    let x := setting.extensions
    let m := renderUntil setting limit d inclusion fuse?
    (∀ b : TreeBuilder, (x.Tidy TreeBuilder → Balanced x m b) ∧
      (x.BuiltIn → Balanced x m b ∧ Faultless m b)) ∧
    ∀ w : Xml.TextWriter, w.isFinished = false → w.sink.room? = none →
      (x.Tidy Xml.TextWriter → Balanced x m w) ∧ (x.BuiltIn → Balanced x m w ∧ Faultless m w) := by
  intro x m
  refine ⟨fun b => ⟨fun hx => ?_, fun hx => ⟨?_, ?_⟩⟩, fun w hf hs => ?_⟩
  · exact balanced_renderUntil hx limit d inclusion fuse? trivial
  · exact balanced_renderUntil hx.tidy limit d inclusion fuse? trivial
  · exact faultless_renderUntil hx limit d inclusion fuse? trivial
  · have hw : w.Works := ⟨hf, hs⟩
    exact ⟨fun hx => balanced_renderUntil hx limit d inclusion fuse? hw, fun hx =>
      ⟨balanced_renderUntil hx.tidy limit d inclusion fuse? hw,
        faultless_renderUntil hx limit d inclusion fuse? hw⟩⟩

def openHandler : CodeHandler := fun _ _ =>
  (Writing.call (.element "Frame")).bind fun _ => .done ⟨.ok .rendered, false⟩

theorem tidy_openHandler : (Extensions.none.withCode "chart" openHandler).Tidy σ := by
  intro handler ho context w _ s hs hc
  cases ho with
  | code b hm =>
    cases List.mem_singleton.1 hm
    cases List.mem_singleton.1 hs
    cases hc
  | media item hm => cases hm

theorem builtIn_standard : Extensions.standard.BuiltIn :=
  ⟨rfl, fun _ he => congrArg Prod.snd (List.mem_singleton.1 he)⟩

/-- Inside an element of the caller, a code block goes to a handler that leaves an element open, and a
picture to the handler for images. -/
theorem renderUntil_balanced_openHandler :
    let leaky : Setting := ⟨.ofKind .maui, Extensions.none.withCode "chart" openHandler⟩
    let chart := Document.ofNodes [.codeBlock (.ofRows (some "chart") ["1, 2"])]
    let standard : Setting := ⟨.ofKind .xamarinForms, .standard⟩
    let picture := Document.ofNodes [.paragraph [.multimedia [.ofUrl "a.png"] [.text "a"] true]]
    let w := (Writer.perform (.element "Page") (Xml.TextWriter.new .unlimited .compact)).2
    Balanced leaky.extensions (renderUntil leaky 4 chart false none)
        (Writer.perform (.element "Page") TreeBuilder.empty).2 ∧
      Balanced leaky.extensions (renderUntil leaky 4 chart false none) w ∧
      Faultless (renderUntil standard 4 picture true (some 1)) w ∧
      w.isFinished = false ∧ w.sink.room? = none :=
  ⟨((renderUntil_balanced _ 4 _ false none).1 _).1 tidy_openHandler,
    ((renderUntil_balanced _ 4 _ false none).2 _ rfl rfl).1 tidy_openHandler,
    (((renderUntil_balanced _ 4 _ true (some 1)).2 _ rfl rfl).2 builtIn_standard).2, rfl, rfl⟩

end XamlDoc
