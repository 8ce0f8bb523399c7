import XamlDoc.Proofs.Inline.Spans
import XamlDoc.Proofs.Render.Agreement
import XamlDoc.Proofs.Render.Balance

/-!
# Renderings in any place

Without other handlers than the one for images, what a rendering comes to and which calls it makes depends on
the state it begins in and on nothing else: neither on the kind of the writer nor on what has been written before.
Where it comes to its end, the calls write whole contents, and the spans among these are runs.
-/

namespace XamlDoc

open Markup Gauged
open Markup.Content (allCalls allCalls_append allNamed allNamed_append)

/-! ### Writings -/

/-- On every working writer of any kind, the run ends with the value and makes the calls. -/
structure Comes {α : Type} (m : Writing α) (a : α) (cs : List Call) : Prop where
  run {σ : Type} [Writer σ] [Gauged σ] {w : σ} : Works w → (m.run w).1 = a ∧ m.made w = cs

namespace Comes

variable {α β : Type}

theorem done (a : α) : Comes (.done a) a [] := ⟨fun _ => ⟨rfl, rfl⟩⟩

theorem bind {m : Writing α} {f : α → Writing β} {a : α} {b : β} {cs ks : List Call} (hm : Comes m a cs)
    (hf : Comes (f a) b ks) : Comes (m.bind f) b (cs ++ ks) := by
  refine ⟨fun {σ} _ _ w hw => ?_⟩
  obtain ⟨ha, hc⟩ := hm.run hw
  obtain ⟨hb, hk⟩ := hf.run (works_run m hw)
  rw [Writing.run_bind, Writing.made_bind, ha, hc]
  exact ⟨hb, congrArg _ hk⟩

theorem calls (k : List Content) : Comes (Writing.calls (allCalls k)) (.ok ()) (allCalls k) :=
  ⟨fun hw => ⟨(accepted_allCalls hw k).answer, (accepted_allCalls hw k).made⟩⟩

theorem emit (k : List Content) (p : Progress) :
    Comes (Rendering.emit (allCalls k) p) (Except.ok ((), p)) (allCalls k) := by
  have h : Comes (Rendering.emit (allCalls k) p) (Except.ok ((), p)) (allCalls k ++ []) :=
    (calls k).bind (done (Except.ok ((), p)))
  rwa [List.append_nil] at h

end Comes

/-! ### Contents written at once -/

namespace Layout

open Rendering

theorem element_emit (t : Tag) (k : List Content) :
    element t (emit (allCalls k)) = emit (allCalls [.element t.name t.attributes k]) := by
  rw [allCalls, allCalls, List.append_nil, Content.calls, emit_append, emit_append]
  rfl

theorem leaf_eq_emit (t : Tag) : leaf t = emit (allCalls [.element t.name t.attributes []]) := by
  rw [allCalls, allCalls, List.append_nil]
  rfl

end Layout

/-! ### Renderings -/

/-- In any place, the run ends with the result and makes the calls. If it comes to its end, the calls write
contents whose spans are runs. -/
structure Placed {α : Type} (profile : Profile) (m : Writing (Except RenderError α))
    (r : Except RenderError α) (cs : List Call) : Prop where
  comes : Comes m r cs
  whole {a : α} : r = .ok a →
    ∃ k, cs = allCalls k ∧ ∃ runs : List Run, allNamed "Span" k = runs.map (Run.element profile)

/-- From every state, the rendering does the same in any place. -/
def Placeless (profile : Profile) (α : Type) (m : Rendering α) : Prop :=
  ∀ p, ∃ r cs, Placed profile (m p) r cs

namespace Placed

variable {profile : Profile} {α β : Type}

theorem silent (r : Except RenderError α) : Placed profile (.done r) r [] :=
  ⟨Comes.done r, fun _ => ⟨[], rfl, [], rfl⟩⟩

theorem andThen {m : Rendering α} {f : α → Rendering β} {p q : Progress} {a : α} {cs ks : List Call}
    {r : Except RenderError (β × Progress)} (hm : Placed profile (m p) (.ok (a, q)) cs)
    (hf : Placed profile (f a q) r ks) : Placed profile ((m >>= f) p) r (cs ++ ks) := by
  refine ⟨?_, fun {b} hr => ?_⟩
  · rw [Rendering.bind_apply]
    exact hm.comes.bind hf.comes
  · obtain ⟨k, rfl, runs, hk⟩ := hm.whole rfl
    obtain ⟨l, rfl, runs', hl⟩ := hf.whole hr
    refine ⟨k ++ l, (allCalls_append k l).symm, runs ++ runs', ?_⟩
    rw [allNamed_append, hk, hl, List.map_append]

theorem failed {m : Rendering α} {f : α → Rendering β} {p : Progress} {e : RenderError} {cs : List Call}
    (hm : Placed profile (m p) (.error e) cs) : Placed profile ((m >>= f) p) (.error e) cs := by
  refine ⟨?_, nofun⟩
  rw [Rendering.bind_apply, ← List.append_nil cs]
  exact hm.comes.bind (Comes.done _)

theorem emit (k : List Content) {runs : List Run} (h : allNamed "Span" k = runs.map (Run.element profile))
    (p : Progress) : Placed profile (Rendering.emit (allCalls k) p) (.ok ((), p)) (allCalls k) :=
  ⟨Comes.emit k p, fun _ => ⟨k, rfl, runs, h⟩⟩

theorem flush (p : Progress) : Placed profile (Rendering.flush profile p) (.ok ((), ⟨p.traversal, ∅⟩))
    (allCalls (p.runs.contents profile)) := by
  have hf : Rendering.flush profile p = Rendering.emit (allCalls (p.runs.contents profile)) ⟨p.traversal, ∅⟩ := by
    rw [← p.runs.calls_eq]
    rfl
  rw [hf]
  exact emit _ (p.runs.spans_contents profile) _

/-- Content between calls that open elements and a writing that closes them. -/
theorem enclosed {n : Nat} {start : List Call} (hs : Opening n start) (hsl : Spanless start)
    {content : Rendering Unit} {p : Progress} {r : Except RenderError (Unit × Progress)} {cs : List Call}
    (hc : Placed profile (content p) r cs) {m : Writing (Except RenderError (Unit × Progress))}
    (hm : ∀ {σ : Type} [Writer σ] (w : σ), ∃ finish, Closes σ (Writer.depth w) n finish ∧
      let bracket : Rendering Unit := do
        Rendering.emit start
        content
        Rendering.ofWriting finish
      m.run w = Writing.run (bracket p) w ∧ m.made w = Writing.made (bracket p) w) :
    ∃ ks, Placed profile m r ks := by
  cases r with
  | error e =>
    refine ⟨start ++ cs, ⟨fun {σ} _ _ w hw => ?_⟩, nofun⟩
    obtain ⟨finish, -, hr, hk⟩ := hm w
    obtain ⟨he, hmade⟩ := hc.comes.run (works_run (Writing.calls start) hw)
    rw [hr, hk, ← hmade]
    exact Rendering.run_enclosed_error hw hs he
  | ok a =>
    obtain ⟨⟨⟩, q⟩ := a
    obtain ⟨k, rfl, runs, hk⟩ := hc.whole rfl
    obtain ⟨k', hk', hn⟩ := Opening.allNamed_around (List.mem_singleton_self _) hs hsl k
    refine ⟨allCalls k', ⟨fun {σ} _ _ w hw => ?_⟩, fun _ => ⟨k', rfl, runs, hn.trans hk⟩⟩
    obtain ⟨finish, hf, hr, hm⟩ := hm w
    obtain ⟨ha, hmade⟩ := hc.comes.run (works_run (Writing.calls start) hw)
    have hb := Rendering.run_enclosed hw hs hf ha hmade
    rw [hr, hm, ← hk']
    exact hb

end Placed

namespace Placeless

variable {profile : Profile} {α β : Type}

theorem done (a : α) : Placeless profile α (pure a) := fun p => ⟨.ok (a, p), [], .silent _⟩

theorem bind {m : Rendering α} {f : α → Rendering β} (hm : Placeless profile α m)
    (hf : ∀ a, Placeless profile β (f a)) : Placeless profile β (m >>= f) := by
  intro p
  obtain ⟨r, cs, hm⟩ := hm p
  cases r with
  | error e => exact ⟨.error e, cs, hm.failed⟩
  | ok a =>
    obtain ⟨r, ks, hf⟩ := hf a.1 a.2
    exact ⟨r, cs ++ ks, hm.andThen hf⟩

theorem whole {cs : List Call} (hc : Whole cs) (hs : Spanless cs) : Placeless profile Unit (Rendering.emit cs) := by
  intro p
  obtain ⟨k, rfl, -⟩ := hc
  have hk : allNamed "Span" k = List.map (Run.element profile) [] :=
    allNamed_of_avoids (List.mem_singleton_self _) hs
  exact ⟨_, _, .emit k hk p⟩

theorem element {t : Tag} {content : Rendering Unit} (ht : DistinctNames t.attributes) (hn : t.name ∉ ["Span"])
    (hc : Placeless profile Unit content) : Placeless profile Unit (Rendering.element t content) := by
  intro p
  obtain ⟨r, cs, hc⟩ := hc p
  obtain ⟨ks, h⟩ := Placed.enclosed (Opening.ofTag ht) (avoids_ofTag hn) hc
    (m := Rendering.element t content p) fun w => ⟨_, closes_one _, rfl, rfl⟩
  exact ⟨r, ks, h⟩

theorem enclosed {n : Nat} {start : List Call} {content : Rendering Unit} (hs : Opening n start)
    (hsl : Spanless start) (hc : Placeless profile Unit content) : Placeless profile Unit (do
      let depth ← Rendering.ofQuiet Writing.depth
      Rendering.emit start
      content
      Rendering.ofWriting (Writing.closeTo depth)) := by
  intro p
  obtain ⟨r, cs, hc⟩ := hc p
  let m : Rendering Unit := do
    let depth ← Rendering.ofQuiet Writing.depth
    Rendering.emit start
    content
    Rendering.ofWriting (Writing.closeTo depth)
  obtain ⟨ks, h⟩ := Placed.enclosed hs hsl hc (m := m p) fun w =>
    ⟨_, closes_closeTo (Writer.depth w) n, rfl, rfl⟩
  exact ⟨r, ks, h⟩

theorem bracketed (d : Dialect) {κ : Type} :
    Bracketed d (fun _ => ([] : List κ)) fun α m _ => Placeless d.profile α m where
  done := done
  andThen := bind
  append r a p := ⟨_, _, .silent (.ok ((), { p with runs := p.runs.append r a }))⟩
  comment t p := ⟨_, _, .silent (.ok ((), { p with runs := p.runs.appendComment t }))⟩
  flush p := ⟨_, _, .flush p⟩
  whole := whole
  element := element
  enclosed := enclosed

theorem visit {m : Rendering Unit} (hm : Placeless profile Unit m) : Placeless profile Unit (Rendering.visit m) := by
  intro p
  rw [Render.visit_apply]
  split
  · exact ⟨_, _, .silent _⟩
  · exact hm _

/-- The handler for images writes an image or leaves the node as it was. -/
theorem offered_imageHandler (item : MediaItem) (s : Scope) (a : Alignment)
    {fallback : List String → Rendering Unit} (hf : ∀ messages, Placeless profile Unit (fallback messages)) :
    Placeless profile Unit (Render.offered (imageHandler item) s a fallback) := by
  intro p
  by_cases hu : item.url = ""
  · obtain ⟨r, cs, hr⟩ := hf [] p
    refine ⟨r, cs, ⟨fun {σ} _ _ w hw => ?_⟩, hr.whole⟩
    obtain ⟨he, hm⟩ := Render.offered_imageHandler_empty s a fallback p hu w
    rw [he, hm]
    exact hr.comes.run hw
  · obtain ⟨k, hk, -⟩ := item.image.calls_whole
    have hs : allNamed "Span" k = List.map (Run.element profile) [] :=
      allNamed_of_avoids (List.mem_singleton_self _) (hk ▸ item.image.calls_plain.spanless)
    exact ⟨.ok ((), p), allCalls k, ⟨fun hw => hk ▸ Render.offered_imageHandler s a fallback p hu hw⟩,
      fun _ => ⟨k, rfl, [], hs⟩⟩

theorem closed {setting : Setting} (hx : setting.extensions.BuiltIn) :
    Closed setting (Placeless setting.dialect.profile) fun _ _ => True where
  toCompositional := (bracketed setting.dialect).compositional
  passes := Html.closed_true
  visit := visit
  cancelIf _ _ _ := ⟨_, _, .silent _⟩
  tooDeep _ := ⟨_, _, .silent _⟩
  ofPass _ p := by
    obtain ⟨r, hr⟩ := Rendering.ofPass_eq_done _ p
    exact ⟨r, [], hr ▸ .silent r⟩
  askNumbering hf p := hf _ p
  setNumbering _ _ := ⟨_, _, .silent _⟩
  offered ho hf := by
    obtain ⟨item, rfl⟩ := hx.offers ho
    exact offered_imageHandler item _ _ hf

end Placeless

/-! ### Scopes of a document -/

/-- In every scope of a document, what comes from outside a node has a closed property. -/
theorem Closed.scopeWithin {setting : Setting} {P : (α : Type) → Rendering α → Prop}
    {Q : (α : Type) → Html.Pass α → Prop} (h : Closed setting P Q) (limit : Nat) (d : Document) (levels : Nat)
    (expanding : List String) : (Render.scopeWithin setting limit d levels expanding).Has P Q := by
  have hn := h.passes.nestedDocument setting.dialect.profile limit
  refine Closed.expandingScope (s := Render.outerScope setting limit d) h ⟨nofun, fun {m} hm => ?_,
    h.scriptDocument limit, ⟨rfl, nofun, hn⟩⟩ levels expanding
  obtain ⟨detail, -, rfl⟩ := Option.map_eq_some_iff.1 hm
  exact h.included (h.scriptDocument limit) hn detail

/-- A closed property holds of nodes in every scope of a document. -/
theorem Closed.nodesWithin {setting : Setting} {P : (α : Type) → Rendering α → Prop}
    {Q : (α : Type) → Html.Pass α → Prop} (h : Closed setting P Q) (limit : Nat) (d : Document) (levels : Nat)
    (expanding : List String) (l : List Node) (st : Style) :
    P Unit (Render.nodes (Render.scopeWithin setting limit d levels expanding) l st) := by
  have hs : Closed (Render.scopeWithin setting limit d levels expanding).setting P Q :=
    (Render.scopeWithin_setting ..).symm ▸ h
  exact hs.nodes (h.scopeWithin limit d levels expanding) l st

end XamlDoc
