import XamlDoc.Proofs.Render.Agreement
import XamlDoc.Proofs.Render.Spans

/-!
# Documents in the middle of others

The detail document, and a document that a script returns, is written where its reference stands, between the
runs before it and whatever comes after it. It is written as it would be on its own: it finds no runs and no
numbers, and the document around it goes on with its own numbers and with no runs.
-/

namespace XamlDoc

open Markup
open Rendering Layout

/-! ### Runs left behind -/

def dropRuns : Rendering Unit := modify fun p => { p with runs := ∅ }

/-- If no runs wait before the rendering, none wait after it. -/
def Settles (m : Rendering Unit) : Prop := ∀ t, (m >>= fun _ => dropRuns) ⟨t, ∅⟩ = m ⟨t, ∅⟩

/-- No runs wait after the rendering. -/
def Drains (m : Rendering Unit) : Prop := (m >>= fun _ => dropRuns) = m

theorem Drains.settles {m : Rendering Unit} (h : Drains m) : Settles m := fun t => congrFun h ⟨t, ∅⟩

theorem Drains.after {m : Rendering Unit} (h : Drains m) (n : Rendering Unit) : Drains (n >>= fun _ => m) := by
  rw [Drains, bind_assoc, h]

namespace Settles

theorem bind {β : Type} {m : Rendering Unit} (h : Settles m) (f : Unit → Rendering β) (t : Traversal) :
    (m >>= f) ⟨t, ∅⟩ = (m >>= fun _ => dropRuns >>= f) ⟨t, ∅⟩ := by
  rw [← bind_assoc, bind_apply m, bind_apply (m >>= _), h]

theorem seq {m n : Rendering Unit} (hm : Settles m) (hn : Settles n) : Settles (m >>= fun _ => n) := by
  intro t
  have hd : (dropRuns >>= fun _ => n >>= fun _ => dropRuns) = dropRuns >>= fun _ => n := by
    funext p
    exact hn p.traversal
  rw [bind_assoc, hm.bind, hd, ← hm.bind]

theorem emit (cs : List Call) : Settles (emit cs) := by
  intro t
  rw [bind_apply, Rendering.emit, ofWriting, Writing.bind_assoc]
  congr 1
  funext answer
  cases answer <;> rfl

theorem element (t : Tag) {content : Rendering Unit} (h : Settles content) : Settles (element t content) :=
  (emit _).seq (h.seq (emit _))

theorem inOrder {ms : List (Rendering Unit)} (h : ∀ m ∈ ms, Settles m) : Settles (inOrder ms) := by
  induction ms with
  | nil => exact fun _ => rfl
  | cons m r ih => exact (h m (List.mem_cons_self ..)).seq (ih fun n hn => h n (List.mem_cons_of_mem m hn))

end Settles

theorem drains_flush (profile : Profile) : Drains (flush profile) := by
  funext p
  have h := Settles.emit (p.runs.calls profile) p.traversal
  rw [bind_apply] at h ⊢
  exact h

theorem drains_flushed (d : Dialect) (content : Rendering Unit) : Drains (flushed d content) :=
  (drains_flush d.profile).after content

/-- The footnotes leave no runs, because every one of them stands in a stack. -/
theorem settles_footnotes (d : Dialect) (contents : List (Rendering Unit)) : Settles (footnotes d contents) := by
  refine (Settles.emit _).seq ((Settles.emit _).seq (.seq (.inOrder fun m hm => ?_) (Settles.emit _)))
  obtain ⟨row, hr, rfl⟩ := List.mem_mapIdx.1 hm
  exact (Settles.element _ (.emit _)).seq (.element _ (.element _ (drains_flushed d _).settles))

namespace Render

theorem settles_footnoteSection (s : Scope) : Settles (footnoteSection s) := by
  intro t
  show (footnoteRows s t.numbering >>= fun _ => dropRuns) ⟨t, ∅⟩ = footnoteRows s t.numbering ⟨t, ∅⟩
  rw [footnoteRows]
  split
  · rfl
  · exact settles_footnotes s.dialect _ _

/-- Documents have numbers of their own and leave no runs. -/
theorem body_apply (s : Scope) (t : Traversal) :
    body s ⟨t, ∅⟩ = Writing.bind (body s ⟨{ t with numbering := ∅ }, ∅⟩) fun
      | .ok ((), q) => .done (.ok ((), ⟨{ q.traversal with numbering := t.numbering }, ∅⟩))
      | .error e => .done (.error e) := by
  let content : Rendering Unit := flushed s.dialect (nodes s s.document.nodes .plain) >>= fun _ => footnoteSection s
  have hc : Settles content := (drains_flushed s.dialect _).settles.seq (settles_footnoteSection s)
  have hb (t : Traversal) : body s ⟨t, ∅⟩ = (content >>= fun _ => dropRuns >>= fun _ =>
      ofPass (modify fun u => { u with numbering := t.numbering })) ⟨{ t with numbering := ∅ }, ∅⟩ :=
    hc.bind (fun _ => ofPass (modify fun u : Traversal => { u with numbering := t.numbering }))
      { t with numbering := ∅ }
  rw [hb, hb, bind_apply, bind_apply, Writing.bind_assoc]
  congr 1
  funext result
  rcases result with e | ⟨⟨⟩, q⟩ <;> rfl

/-! ### Insertions -/

variable {setting : Setting} {limit : Nat} {d : Document}

/-- In a document with documents of scripts nested at most so deep, a node stands for another document in which
they may be nested at most so deep. The script that returns it may fire the token. -/
inductive Inserts (setting : Setting) (d : Document) : Nat → Node → Nat → Bool → Document → Prop where
  | detail {limit : Nat} {e : Document} : d.detail = some e → Inserts setting d limit .detailsReference limit false e
  | script {limit : Nat} {expression : String} {alone cancels : Bool} {evaluate : Evaluator} {e : Document} :
    setting.extensions.evaluator? = some evaluate → evaluate expression = ⟨.ok (.document e), cancels⟩ →
    Inserts setting d (limit + 1) (.inlineScript expression alone) limit cancels e

/-- The runs that wait are written, then a document as on its own. After that it goes on with the numbers given
before and no runs. -/
def insertion (setting : Setting) (limit : Nat) (e : Document) (p : Progress)
    (next : Progress → Writing (Except RenderError (Unit × Progress))) :
    Writing (Except RenderError (Unit × Progress)) :=
  (Writing.calls (p.runs.calls setting.dialect.profile)).bind fun
    | .error x => .done (.error (.write x))
    | .ok () => Writing.bind (document setting limit e true ⟨{ p.traversal with numbering := ∅ }, ∅⟩) fun
      | .error x => .done (.error x)
      | .ok ((), q) => next ⟨{ q.traversal with numbering := p.traversal.numbering }, ∅⟩

theorem document_included (setting : Setting) (limit : Nat) (e : Document) :
    document setting limit e true = included setting (scriptDocument setting limit)
      (Html.nestedDocument setting.extensions.evaluator? setting.dialect.profile limit) e := rfl

theorem flush_document (setting : Setting) (limit : Nat) (e : Document) (p : Progress) :
    (flush setting.dialect.profile >>= fun _ => document setting limit e true) p =
      insertion setting limit e p fun q => .done (.ok ((), q)) := by
  have hf : flush setting.dialect.profile p =
      Rendering.emit (p.runs.calls setting.dialect.profile) ⟨p.traversal, ∅⟩ := rfl
  rw [bind_apply, hf, Rendering.emit, ofWriting, Writing.bind_assoc, insertion]
  congr 1
  funext answer
  cases answer with
  | error x => rfl
  | ok a =>
    show document setting limit e true ⟨p.traversal, ∅⟩ = _
    rw [document_included, included_eq, body_apply]
    congr 1
    funext result
    rcases result with x | ⟨⟨⟩, q⟩ <;> rfl

theorem insertion_bind (setting : Setting) (limit : Nat) (e : Document) (p : Progress) (m : Rendering Unit) :
    ((fun p => insertion setting limit e p fun q => .done (.ok ((), q)) : Rendering Unit) >>= fun _ => m) p =
      insertion setting limit e p m := by
  rw [bind_apply, insertion, insertion, Writing.bind_assoc]
  congr 1
  funext answer
  cases answer with
  | error x => rfl
  | ok a =>
    show Writing.bind (Writing.bind _ _) _ = Writing.bind _ _
    rw [Writing.bind_assoc]
    congr 1
    funext result
    rcases result with x | ⟨⟨⟩, q⟩ <;> rfl

section

variable (levels : Nat) (expanding : List String)

theorem details_apply {e : Document} (he : d.detail = some e) (st : Style) (p : Progress) :
    details (scopeWithin setting limit d levels expanding) st p =
      insertion setting limit e p fun q => .done (.ok ((), q)) := by
  rw [details, scopeWithin_detail, outerScope, he, Option.map_some, ← document_included, ← flush_document,
    Scope.profile, scopeWithin_setting]

theorem script_apply {evaluate : Evaluator} {expression : String} {cancels : Bool} {e : Document}
    (hv : setting.extensions.evaluator? = some evaluate) (he : evaluate expression = ⟨.ok (.document e), cancels⟩)
    (st : Style) (alone : Bool) (p : Progress) :
    script (scopeWithin setting (limit + 1) d levels expanding) st expression alone p =
      insertion setting limit e { p with traversal := p.traversal.cancelIf cancels } fun q => .done (.ok ((), q)) := by
  simp only [script, Scope.extensions, scopeWithin_setting, hv, he]
  rw [← flush_document]
  show (flush _ >>= fun _ => Scope.nested _ e) _ = _
  rw [Scope.profile, scopeWithin_nested, scopeWithin_setting]
  rfl

theorem Inserts.script_eq {expression : String} {alone' : Bool} {limit' : Nat} {cancels : Bool} {e : Document}
    (h : Inserts setting d limit (.inlineScript expression alone') limit' cancels e) (st : Style) (alone : Bool)
    (p : Progress) :
    Render.script (scopeWithin setting limit d levels expanding) st expression alone p =
      insertion setting limit' e { p with traversal := p.traversal.cancelIf cancels } fun q => .done (.ok ((), q)) := by
  cases h with
  | script hv he => exact script_apply levels expanding hv he st alone p

theorem Inserts.node_eq {n : Node} {limit' : Nat} {cancels : Bool} {e : Document}
    (h : Inserts setting d limit n limit' cancels e) (st : Style) (p : Progress) :
    Render.node (scopeWithin setting limit d levels expanding) n st p =
      if p.traversal.stops then .done (.error .cancelled)
      else insertion setting limit' e { p with traversal := p.traversal.tick.cancelIf cancels }
        fun q => .done (.ok ((), q)) := by
  cases h with
  | detail he =>
    rw [Render.node, span, visit_apply, details_apply levels expanding he, Traversal.cancelIf, Bool.or_false]
    rfl
  | script hv he =>
    rw [Render.node, span, visit_apply, script_apply levels expanding hv he]
    rfl

end

/-- A run that comes to its end closes nothing after the document. -/
theorem document_of_renderFrom_ok {σ : Type} [Writer σ] {inclusion : Bool} {t : Traversal} {w : σ}
    (h : (Writing.run (renderFrom setting limit d inclusion t) w).1 = .ok ()) :
    (renderFrom setting limit d inclusion t).made w = Writing.made (document setting limit d inclusion ⟨t, ∅⟩) w ∧
      ∃ q, Writing.run (document setting limit d inclusion ⟨t, ∅⟩) w =
        (.ok ((), q), (Writing.run (renderFrom setting limit d inclusion t) w).2) := by
  rw [Writing.made, steps_renderFrom, Writing.made]
  rw [run_renderFrom] at h ⊢
  generalize Writing.steps (document setting limit d inclusion ⟨t, ∅⟩) w = steps
  generalize Writing.run (document setting limit d inclusion ⟨t, ∅⟩) w = r at h ⊢
  obtain ⟨x | ⟨⟨⟩, q⟩, w'⟩ := r
  · rw [run_unwound_error] at h
    cases h
  · exact ⟨congrArg (List.map Prod.snd) (List.append_nil steps), q, rfl⟩

/-- Where the document on its own comes to its end, its insertion makes the calls for the runs and those calls. -/
theorem made_insertion {σ : Type} [Writer σ] {e : Document} {p : Progress} (hp : p.traversal.Rests) {w w' : σ}
    (hw : (Writing.calls (p.runs.calls setting.dialect.profile)).run w = (.ok (), w'))
    (he : (Writing.run (render setting limit e true false) w').1 = .ok ()) :
    let m := insertion setting limit e p fun q => .done (.ok ((), q))
    m.made w = p.runs.calls setting.dialect.profile ++ (render setting limit e true false).made w' ∧
      ∃ t : Traversal, m.run w = (.ok ((), ⟨{ t with numbering := p.traversal.numbering }, ∅⟩),
        (Writing.run (render setting limit e true false) w').2) := by
  have hs : ({ p.traversal with numbering := ∅ } : Traversal) = .start none := by
    obtain ⟨⟨numbering, cancelled, fuse?, watch⟩, runs⟩ := p
    obtain ⟨rfl, rfl, rfl⟩ := hp
    rfl
  have he : (Writing.run (renderFrom setting limit e true (.start none)) w').1 = .ok () := he
  obtain ⟨hm, q, hr⟩ := document_of_renderFrom_ok he
  refine ⟨?_, q.traversal, ?_⟩
  · rw [insertion, Writing.made_bind, Writing.made_calls (congrArg Prod.fst hw), hw, hs]
    refine congrArg _ ?_
    show Writing.made (Writing.bind _ _) w' = _
    rw [Writing.made_bind, hr]
    exact (List.append_nil _).trans hm.symm
  · rw [insertion, Writing.run_bind, hw, hs]
    show Writing.run (Writing.bind _ _) w' = _
    rw [Writing.run_bind, hr]
    rfl

/-- In any scope of a document, what follows in the middle of its content is the insertion of another document:
nothing of it depends on the style, on what is being expanded and on the numbers given before, and what comes next
goes on in the same scope, with those numbers and no runs. Its calls are those for the runs that wait, and those
of the rendering of the other document on its own. -/
theorem nodes_insertion {n : Node} {limit' : Nat} {cancels : Bool} {e : Document}
    (h : Inserts setting d limit n limit' cancels e) (levels : Nat) (expanding : List String) (st : Style)
    (p : Progress) :
    let s := scopeWithin setting limit d levels expanding
    (∀ rest, nodes s (n :: rest) st p = if p.traversal.stops then .done (.error .cancelled)
      else insertion setting limit' e { p with traversal := p.traversal.tick.cancelIf cancels } (nodes s rest st)) ∧
    (∀ expression alone', n = .inlineScript expression alone' → ∀ alone, script s st expression alone p =
      insertion setting limit' e { p with traversal := p.traversal.cancelIf cancels } fun q => .done (.ok ((), q))) ∧
    (p.traversal.Rests → cancels = false → ∀ {σ : Type} [Writer σ] (w w' : σ),
      (Writing.calls (p.runs.calls s.profile)).run w = (.ok (), w') →
      let alone := render setting limit' e true false
      (alone.run w').1 = .ok () →
        Writing.made (node s n st p) w = p.runs.calls s.profile ++ alone.made w' ∧
        ∃ t : Traversal, Writing.run (node s n st p) w =
          (.ok ((), ⟨{ t with numbering := p.traversal.numbering }, ∅⟩), (alone.run w').2)) := by
  intro s
  refine ⟨fun rest => ?_, ?_, ?_⟩
  · rw [nodes, bind_apply, h.node_eq levels expanding st p]
    split
    · rfl
    · have hb := insertion_bind setting limit' e { p with traversal := p.traversal.tick.cancelIf cancels }
        (nodes s rest st)
      rwa [bind_apply] at hb
  · rintro expression alone' rfl alone
    exact h.script_eq levels expanding st alone p
  · rintro hp rfl σ _ w w' hw alone ha
    have hn : node s n st p = insertion setting limit' e p fun q => .done (.ok ((), q)) := by
      rw [h.node_eq levels expanding st p, hp.not_stops, hp.tick, if_neg Bool.false_ne_true, Traversal.cancelIf,
        Bool.or_false]
    rw [hn]
    rw [Scope.profile, scopeWithin_setting] at hw ⊢
    exact made_insertion hp hw ha

/-- A document with a footnote of its own, which is named like one of the document around it. -/
def nestedNote : Document :=
  (Document.ofNodes [.text "in", .footnoteReference "a" false]).withFootnote "a" [.text "note"]

def nestingSetting : Setting :=
  ⟨.ofKind .xamarinForms, Extensions.none.withEvaluator fun _ => ⟨.ok (.document nestedNote), false⟩⟩

/-- A script in bold centred text, in a footnote that is being expanded inside another, after a waiting run. -/
theorem nodes_insertion_in_footnotes :
    let s := scopeWithin nestingSetting 4 (entangled.withDetail nestedNote) 0 ["a", "b"]
    let st : Style := { Style.plain with bold := true, alignment := .center }
    let p : Progress := ⟨numberedBefore, (∅ : RunBuffer).append (.ofStyle "before" st) .center⟩
    let w := ((Writing.calls (p.runs.calls s.profile)).run TreeBuilder.empty).2
    Writing.made (node s (.inlineScript "f()" false) st p) TreeBuilder.empty =
        p.runs.calls s.profile ++ (render nestingSetting 3 nestedNote true false).made w ∧
      ∃ t : Traversal, Writing.run (node s (.inlineScript "f()" false) st p) TreeBuilder.empty =
        (.ok ((), ⟨{ t with numbering := Numbering.addAll ∅ ["c"] }, ∅⟩),
          (Writing.run (render nestingSetting 3 nestedNote true false) w).2) := by
  intro s st p w
  have h : Inserts nestingSetting (entangled.withDetail nestedNote) 4 (.inlineScript "f()" false) 3 false nestedNote :=
    .script rfl rfl
  have hw : (Writing.calls (p.runs.calls s.profile)).run TreeBuilder.empty = (.ok (), w) := rfl
  exact (nodes_insertion h 0 ["a", "b"] st p).2.2 ⟨rfl, rfl, rfl⟩ rfl _ _ hw rfl

end Render

end XamlDoc
