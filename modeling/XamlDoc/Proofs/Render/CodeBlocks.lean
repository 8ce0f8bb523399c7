import XamlDoc.Proofs.Render.Placement

/-!
# Code blocks left by their handler

A handler that declines a code block or fails may have written anything and left elements open. The rendering closes
these, writes one container for each message and then the block just as it does where no handler is registered, so the
rows of the block are always written.
-/

namespace XamlDoc

open Markup Gauged
open Markup.Content (allCalls allCalls_append)

/-! ### Registered handlers -/

namespace Extensions

/-- Handlers registered one after the other. -/
def withCodes (x : Extensions) (registrations : List (String × CodeHandler)) : Extensions :=
  registrations.foldl (fun x r => x.withCode r.1 r.2) x

theorem codeHandler?_withCode (x : Extensions) (registered language : String) (h : CodeHandler) :
    (x.withCode registered h).codeHandler? language =
      if registered.toLower = language.toLower then some h else x.codeHandler? language := by
  simp only [codeHandler?, withCode, List.lookup_cons]
  by_cases he : registered.toLower = language.toLower
  · rw [if_pos he, beq_iff_eq.2 he.symm]
  · rw [if_neg he, beq_eq_false_iff_ne.2 (Ne.symm he)]

/-- The handler of a language is the last one registered under a name that differs from it in upper and lower case at
most. -/
theorem codeHandler?_withCodes (x : Extensions) (registrations : List (String × CodeHandler)) (language : String) :
    (x.withCodes registrations).codeHandler? language =
      (((registrations.filter fun r => r.1.toLower = language.toLower).getLast?).map Prod.snd).or
        (x.codeHandler? language) := by
  induction registrations generalizing x with
  | nil => rfl
  | cons r rest ih =>
    have hrest := ih (x.withCode r.1 r.2)
    rw [codeHandler?_withCode] at hrest
    refine hrest.trans ?_
    by_cases he : r.1.toLower = language.toLower
    · rw [if_pos he, List.filter_cons_of_pos (by simpa using he), List.getLast?_cons]
      cases (rest.filter fun r => r.1.toLower = language.toLower).getLast? <;> rfl
    · rw [if_neg he, List.filter_cons_of_neg (by simpa using he)]

end Extensions

/-! ### Contents written at once -/

namespace Layout

open Rendering

def errorElement (d : Dialect) (alignment : Alignment) (message : String) : Content :=
  .element "ContentView" (("Padding", d.spacing .block) :: alignmentOptions alignment)
    [.element "Label" [("LineBreakMode", "WordWrap"), ("HorizontalTextAlignment", alignment.ofLabel),
      ("TextColor", d.profile.errorColor), ("Text", message)] []]

/-- A row of code, which is not wrapped and has the font for code. -/
def codeLabel (d : Dialect) (s : Style) (row : String) : Content :=
  .element "Label" [("LineBreakMode", "NoWrap"), ("HorizontalTextAlignment", s.alignment.ofLabel),
    ("FontFamily", d.profile.codeFontFamily), ("Text", row)] []

def codeElement (d : Dialect) (s : Style) (rows : List String) : Content :=
  .element "ContentView" (("Padding", d.spacing .block) :: alignmentOptions s.alignment)
    [.element d.stack.name d.stack.attributes (rows.map (codeLabel d s))]

theorem inOrder_emit {ι : Type} (f : ι → Content) (items : List ι) :
    inOrder (items.map fun i => emit (allCalls [f i])) = emit (allCalls (items.map f)) := by
  induction items with
  | nil => rfl
  | cons i r ih =>
    rw [List.map_cons, inOrder, ih, ← emit_append, ← allCalls_append]
    rfl

theorem errorBlock_eq (d : Dialect) (alignment : Alignment) (message : String) :
    errorBlock d alignment message = emit (allCalls [errorElement d alignment message]) := by
  rw [errorBlock, padded, label, leaf_eq_emit, element_emit]
  rfl

theorem codeRows_eq (d : Dialect) (s : Style) (rows : List String) :
    codeRows d s rows = emit (allCalls [codeElement d s rows]) := by
  have hr (row : String) : codeRow d s row = emit (allCalls [codeLabel d s row]) := by
    rw [codeRow, leaf_eq_emit]
    rfl
  rw [codeRows, padded, funext hr, inOrder_emit, element_emit, element_emit]
  rfl

end Layout

/-! ### What the handler left -/

namespace Render

open Rendering Layout

/-- The rendering of a code block without a handler of its language. -/
theorem code_plain {s : Scope} {b : CodeBlock} (h : b.language.bind s.extensions.codeHandler? = none) (st : Style) :
    code s st b = emit (allCalls [codeElement s.dialect st b.rows]) := by
  rw [code, h, ← codeRows_eq]
  rfl

variable {σ : Type} [Writer σ]

/-- After a handler that left the node, what it left open is closed and its fallback has its turn. -/
theorem offered_left {handler : HandlerContext → Writing Handled} {s : Scope} {alignment : Alignment} {w : σ}
    {messages : List String} (h : ((handler ⟨alignment, s.dialect⟩).run w).1.left? = some messages)
    (fallback : List String → Rendering Unit) (p : Progress) :
    let r := (handler ⟨alignment, s.dialect⟩).run w
    let q : Progress := { p with traversal := p.traversal.cancelIf r.1.cancels }
    let rest := (Writing.closeTo (Writer.depth w)).bind fun _ => fallback messages q
    Writing.run (offered handler s alignment fallback p) w = rest.run r.2 ∧
      Writing.steps (offered handler s alignment fallback p) w =
        (handler ⟨alignment, s.dialect⟩).steps w ++ rest.steps r.2 := by
  rw [offered_apply, Writing.run, Writing.steps, Writing.run_bind, Writing.steps_bind]
  generalize (handler ⟨alignment, s.dialect⟩).run w = r at h ⊢
  obtain ⟨⟨result, cancels⟩, left⟩ := r
  rcases result with (e | message | list) | (_ | _) <;> cases h <;> exact ⟨rfl, rfl⟩

theorem steps_emit (cs : List Call) (p : Progress) (w : σ) :
    Writing.steps (emit cs p) w = (Writing.calls cs).steps w := by
  rw [emit, ofWriting, Writing.steps_bind]
  cases ((Writing.calls cs).run w).1 <;> exact List.append_nil _

variable [Gauged σ]

/-- If the handler closed nothing but its own, the calls after it close what it left open and write the contents of the
fallback, and none of them is refused. -/
theorem offered_left_emit {handler : HandlerContext → Writing Handled} {s : Scope} {alignment : Alignment} {w : σ}
    (hw : Works w)
    (htidy : ∀ step ∈ (handler ⟨alignment, s.dialect⟩).steps w, step.2 = .close → ¬ Refused step →
      Writer.depth w < Writer.depth step.1)
    {messages : List String} (h : ((handler ⟨alignment, s.dialect⟩).run w).1.left? = some messages)
    (contents : List String → List Content) (p : Progress) :
    let r := (handler ⟨alignment, s.dialect⟩).run w
    let m : Writing (Except RenderError (Unit × Progress)) :=
      offered handler s alignment (fun messages => emit (allCalls (contents messages))) p
    Writer.depth w ≤ Writer.depth r.2 ∧ ∃ rest : List (Step σ),
      m.steps w = (handler ⟨alignment, s.dialect⟩).steps w ++ rest ∧ (∀ step ∈ rest, ¬ Refused step) ∧
      rest.map Prod.snd =
        List.replicate (Writer.depth r.2 - Writer.depth w) .close ++ allCalls (contents messages) ∧
      (m.run w).1 = .ok ((), { p with traversal := p.traversal.cancelIf r.1.cancels }) ∧
      Writer.depth (m.run w).2 = Writer.depth w := by
  intro r m
  obtain ⟨hrun, hsteps⟩ := offered_left h (fun messages => emit (allCalls (contents messages))) p
  have hr : Works r.2 := works_run _ hw
  have hd : Writer.depth w ≤ Writer.depth r.2 := le_depth_run hw (Nat.le_refl _) htidy
  have hclosed := closeTo_accepted hr hd
  have hwritten := accepted_allCalls (works_run (Writing.closeTo (Writer.depth w)) hr) (contents messages)
  refine ⟨hd, _, hsteps, fun step hs => ?_, ?_, ?_, ?_⟩
  · rw [Writing.steps_bind, steps_emit] at hs
    exact (List.mem_append.1 hs).elim (hclosed.none_refused step) (hwritten.none_refused step)
  · rw [Writing.steps_bind, steps_emit, List.map_append]
    exact congr (congrArg _ hclosed.made) hwritten.made
  · rw [hrun, Writing.run_bind]
    exact congrArg Prod.fst (run_ofWriting hwritten.answer _).1
  · rw [hrun, Writing.run_bind]
    exact (congrArg (fun r => Writer.depth r.2) (run_ofWriting hwritten.answer _).1).trans
      (hwritten.depth.trans hclosed.depth)

omit [Gauged σ] in
/-- A code block with a handler. What is left to the fallback is one container for each message, then the rows. -/
theorem code_offered {s : Scope} {b : CodeBlock} {handler : CodeHandler}
    (h : b.language.bind s.extensions.codeHandler? = some handler) (st : Style) :
    code s st b = offered (handler b) s st.alignment fun messages => emit
      (allCalls (messages.map (errorElement s.dialect st.alignment) ++ [codeElement s.dialect st b.rows])) := by
  rw [code, h]
  simp only [funext (errorBlock_eq s.dialect st.alignment), inOrder_emit, plainCode, codeRows_eq, allCalls_append,
    emit_append]

/-- On a writer that works, let a code block be left by the handler of its language: the handler declined it or failed,
but not for the writer, after any calls that closed none but its own elements. Then the rendering closes what the
handler left open, writes one container for each message in order, and makes just the calls that the block takes where
no handler is registered for its language: one label for each row. The handler consulted is the one registered last for
the language in whichever case. -/
theorem code_left (s : Scope) (st : Style) (b : CodeBlock) (p : Progress) (language : String)
    (hl : b.language = some language) (x : Extensions) (registrations : List (String × CodeHandler))
    (hs : s.extensions = x.withCodes registrations) (registered : String × CodeHandler)
    (hlast : (registrations.filter fun r => r.1.toLower = language.toLower).getLast? = some registered)
    (w : σ) (hw : Works w)
    (htidy : ∀ step ∈ (registered.2 b ⟨st.alignment, s.dialect⟩).steps w, step.2 = .close → ¬ Refused step →
      Writer.depth w < Writer.depth step.1)
    (messages : List String) (hleft : ((registered.2 b ⟨st.alignment, s.dialect⟩).run w).1.left? = some messages)
    (bare : Scope) (hd : bare.dialect = s.dialect) (hbare : bare.extensions.codeHandler? language = none) :
    let handler := registered.2 b ⟨st.alignment, s.dialect⟩
    let m : Writing (Except RenderError (Unit × Progress)) := code s st b p
    let plain : Writing (Except RenderError (Unit × Progress)) := code bare st b p
    Writer.depth w ≤ Writer.depth (handler.run w).2 ∧
    (∃ rest : List (Step σ), m.steps w = handler.steps w ++ rest ∧ (∀ step ∈ rest, ¬ Refused step) ∧
      rest.map Prod.snd = List.replicate (Writer.depth (handler.run w).2 - Writer.depth w) .close ++
        (allCalls (messages.map (errorElement s.dialect st.alignment)) ++ plain.made w)) ∧
    plain.made w = allCalls [codeElement s.dialect st b.rows] ∧
    (m.run w).1 = .ok ((), { p with traversal := p.traversal.cancelIf (handler.run w).1.cancels }) ∧
    Writer.depth (m.run w).2 = Writer.depth w := by
  intro handler m plain
  have hb : b.language.bind s.extensions.codeHandler? = some registered.2 := by
    rw [hl, hs]
    exact (x.codeHandler?_withCodes registrations language).trans (by rw [hlast]; rfl)
  have hnone : b.language.bind bare.extensions.codeHandler? = none := by rw [hl]; exact hbare
  have hplain : plain.made w = allCalls [codeElement s.dialect st b.rows] := by
    rw [show plain = emit (allCalls [codeElement bare.dialect st b.rows]) p from congrFun (code_plain hnone st) p, hd]
    exact ((Comes.emit _ p).run hw).2
  obtain ⟨hdepth, rest, hsteps, haccepted, hcalls, hresult, hback⟩ := offered_left_emit hw htidy hleft
    (fun messages => messages.map (errorElement s.dialect st.alignment) ++ [codeElement s.dialect st b.rows]) p
  have hm : m = offered (registered.2 b) s st.alignment (fun messages => emit
      (allCalls (messages.map (errorElement s.dialect st.alignment) ++ [codeElement s.dialect st b.rows]))) p :=
    congrFun (code_offered hb st) p
  rw [← hm] at hsteps hresult hback
  rw [allCalls_append] at hcalls
  exact ⟨hdepth, ⟨rest, hsteps, haccepted, hplain ▸ hcalls⟩, hplain, hresult, hback⟩

/-- Leaves two elements open, the inner one with an attribute, and reports two failures. -/
def failingHandler : CodeHandler := fun _ _ =>
  (Writing.calls [.element "Frame", .element "Label", .attr "Text" "1, 2"]).bind fun _ =>
    .done ⟨.error (.aggregate ["no axis", "no scale"]), false⟩

theorem code_left_failingHandler :
    let setting : Setting :=
      ⟨.ofKind .maui, Extensions.none.withCodes [("chart", openHandler), ("Chart", failingHandler)]⟩
    let b := CodeBlock.ofRows (some "CHART") ["1, 2", "3, 4"]
    let d := Document.ofNodes [.codeBlock b]
    let p : Progress := ⟨.start none, ∅⟩
    let m : Writing (Except RenderError (Unit × Progress)) := code (outerScope setting 0 d) .plain b p
    let plain : Writing (Except RenderError (Unit × Progress)) :=
      code (outerScope ⟨.ofKind .maui, .none⟩ 0 d) .plain b p
    m.made TreeBuilder.empty = [.element "Frame", .element "Label", .attr "Text" "1, 2", .close, .close] ++
      (allCalls (["no axis", "no scale"].map (errorElement (.ofKind .maui) .left)) ++
        plain.made TreeBuilder.empty) := by
  intro setting b d p m plain
  have htidy : ∀ step ∈ (failingHandler b ⟨.left, .ofKind .maui⟩).steps TreeBuilder.empty, step.2 = .close →
      ¬ Refused step → Writer.depth TreeBuilder.empty < Writer.depth step.1 := by
    intro step hs hc
    have hm : step.2 ∈ [Call.element "Frame", .element "Label", .attr "Text" "1, 2"] := List.mem_map_of_mem hs
    simp [hc] at hm
  have hlast : (List.filter (fun r : String × CodeHandler => r.1.toLower = "CHART".toLower)
      [("chart", openHandler), ("Chart", failingHandler)]).getLast? = some ("Chart", failingHandler) := by
    have lower {s t : String} (h : s.toList.map Char.toLower = t.toList.map Char.toLower) : s.toLower = t.toLower := by
      show s.map Char.toLower = t.map Char.toLower
      rw [← String.toList_inj, String.toList_map, String.toList_map, h]
    have hlower : "chart".toLower = "CHART".toLower := lower rfl
    have hmixed : "Chart".toLower = "CHART".toLower := lower rfl
    simp [hlower, hmixed]
  obtain ⟨-, ⟨rest, hsteps, -, hrest⟩, -⟩ := code_left (outerScope setting 0 d) .plain b p "CHART" rfl .none
    [("chart", openHandler), ("Chart", failingHandler)] rfl ("Chart", failingHandler) hlast TreeBuilder.empty trivial
    htidy ["no axis", "no scale"] rfl (outerScope ⟨.ofKind .maui, .none⟩ 0 d) rfl rfl
  rw [Writing.made, hsteps, List.map_append, hrest]
  rfl

end Render

end XamlDoc
