import XamlDoc.Proofs.Render.Isolation
import XamlDoc.Proofs.Render.Placement
import XamlDoc.Proofs.Render.Termination

/-!
# Scripts in documents of scripts

A rendering comes to its end if no script that it may come upon leads back to itself: documents are nested at most as
deep as there are expressions that stand for documents, as elements and as HTML. Nothing ends it otherwise. Footnotes
in place are kept on a stack, but the document of a script is entered whether or not it is being rendered already.
-/

namespace XamlDoc

open Markup Gauged
open Rendering Layout

/-! ### Scripts that end -/

/-- Let only the expressions of a table return documents, and let none that the document leads to lead back to itself.
Then as many levels of documents as the table has entries are enough for the document. -/
theorem Render.terminates_of_acyclic (S : Setting) (D : Document) (table : List String)
    (ht : ∀ evaluate, S.extensions.evaluator? = some evaluate → evaluate.Tabulates table)
    (ha : ∀ evaluate, S.extensions.evaluator? = some evaluate → evaluate.AcyclicFrom D.expressions)
    (limit : Nat) (hl : table.length ≤ limit) :
    -- the whole rendering does not notice further levels, and is not nested too deeply on any writer
    (∀ inclusion fuse?,
      renderUntil S limit D inclusion fuse? = renderUntil S table.length D inclusion fuse?) ∧
    (∀ {σ : Type} [Writer σ] (w : σ) inclusion fuse?,
      ((renderUntil S limit D inclusion fuse?).run w).1 ≠ .error .tooDeep) ∧
    -- neither is the HTML of any of its nodes, whatever footnotes are being expanded around them
    ∀ levels expanding l, (∀ n ∈ l, n.ScriptsIn D.expressions) →
      let html (limit : Nat) := Html.nodes (scopeWithin S limit D levels expanding).html l
      html limit = html table.length ∧ ∀ t, html limit t ≠ .error .tooDeep := by
  have hn (evaluate : Evaluator) (he : S.extensions.evaluator? = some evaluate) :=
    (ha evaluate he).nestsWithin (ht evaluate he)
  have hD := D.throughout_expressions
  refine ⟨renderUntil_eq_of_le hn hD hl, fun w inclusion fuse? => ?_, fun levels expanding l h => ?_⟩
  · exact renderUntil_ne_tooDeep_of_le hn hD hl inclusion fuse? w
  · simp only [scopeWithin_html]
    have h (n : Node) (hl : n ∈ l) := Node.scriptsIn_iff.1 (h n hl)
    exact (Html.Unlimited.nodes hn hD levels expanding h).of_le
      (m := fun limit => Html.nodes ((outerScope S limit D).html.expanding levels expanding) l) hl

/-- A document that leads to another one, past an expression that leads back to itself. -/
def nestingTable : List (String × Evaluation) :=
  [("outer", ⟨.ok (.document (.ofNodes [.header 1 [.inlineScript "inner" false]])), false⟩),
    ("inner", ⟨.ok (.text "a"), false⟩),
    ("x", ⟨.ok (.document (.ofNodes [.paragraph [.inlineScript "x" false]])), false⟩)]

def tabledSetting (table : List (String × Evaluation)) : Setting :=
  ⟨.ofKind .maui, Extensions.standard.withEvaluator (.ofTable table)⟩

theorem terminates_nestingTable :
    let S := tabledSetting nestingTable
    let D := Document.ofNodes [.header 1 [.inlineScript "outer" false], .paragraph [.inlineScript "outer" false]]
    (Evaluator.ofTable nestingTable).Tabulates ["outer", "inner", "x"] ∧
      (Evaluator.ofTable nestingTable).AcyclicFrom D.expressions ∧
      renderUntil S 7 D false none = renderUntil S 3 D false none ∧
      ((renderUntil S 7 D false none).run TreeBuilder.empty).1 ≠ .error .tooDeep ∧
      ∀ t, Html.nodes (Render.scopeWithin S 7 D 0 []).html D.nodes t ≠ .error .tooDeep := by
  intro S D
  have hn : (Evaluator.ofTable nestingTable).NestsWithin 1 D.expressions := by
    rintro expression he d hd inner hi e hr
    have he : expression = "outer" := by simpa using (show expression ∈ ["outer", "outer"] from he)
    subst he
    cases hd
    have hi : inner = "inner" := List.mem_singleton.1 hi
    subst hi
    cases hr
  have ht := Evaluator.tabulates_ofTable nestingTable
  have ha := hn.acyclicFrom
  obtain ⟨hl, hd, hh⟩ := Render.terminates_of_acyclic S D ["outer", "inner", "x"] (fun _ h => by cases h; exact ht)
    (fun _ h => by cases h; exact ha) 7 (by decide)
  have hs (n : Node) (h : n ∈ D.nodes) := Node.scriptsIn_iff.2 (D.throughout_expressions.nodes n h)
  exact ⟨ht, ha, hl false none, hd _ false none, (hh 0 [] D.nodes hs).2⟩

/-! ### Scripts that do not end -/

/-- The node is a paragraph or a header that begins with the script. -/
inductive Node.BeginsWith (expression : String) : Node → Prop where
  | paragraph (alone : Bool) (c : List Node) : BeginsWith expression (.paragraph (.inlineScript expression alone :: c))
  | header (level : UInt8) (alone : Bool) (c : List Node) :
    BeginsWith expression (.header level (.inlineScript expression alone :: c))

def Document.BeginsWith (d : Document) (expression : String) : Prop :=
  ∃ n r, d.nodes = n :: r ∧ n.BeginsWith expression

namespace Html

variable {α β : Type}

/-- From every state in which the token rests, the pass goes too deep. -/
def TooDeep (m : Pass α) : Prop := ∀ t : Traversal, t.Rests → m t = .error .tooDeep

namespace TooDeep

theorem bind {m : Pass α} (h : TooDeep m) (f : α → Pass β) : TooDeep (m >>= f) := by
  intro t ht
  rw [bind_apply, h t ht]

theorem visit {m : Pass α} (h : TooDeep m) : TooDeep (visit m) := by
  intro t ht
  rw [visit_apply, ht.not_stops, ht.tick]
  exact h t ht

theorem ownNumbers {m : Pass α} (h : TooDeep m) : TooDeep (ownNumbers m) := by
  intro t ht
  let rest (a : α) : Pass α := do
    modify fun u => { u with numbering := t.numbering }
    pure a
  rw [show Html.ownNumbers m t = (m >>= rest) { t with numbering := ∅ } from rfl]
  exact h.bind rest _ ⟨ht.cancelled, ht.fuse?, ht.watch⟩

variable {s : Scope} {evaluate : Evaluator} {expression : String} {d : Document}
  (he : s.evaluator? = some evaluate) (hv : evaluate expression = ⟨.ok (.document d), false⟩) (h : TooDeep (s.nested d))
include he hv h

theorem script : TooDeep (script s expression) := by
  intro t ht
  have hs : Html.script s expression t = s.nested d { t with cancelled := t.cancelled || false } := by
    simp only [Html.script, he, hv]
    rfl
  rw [hs, Bool.or_false]
  exact h t ht

theorem nodes (alone : Bool) (r : List Node) : TooDeep (nodes s (.inlineScript expression alone :: r)) :=
  (script he hv h).visit.bind _

theorem begun {n : Node} (hn : n.BeginsWith expression) (r : List Node) : TooDeep (Html.nodes s (n :: r)) := by
  cases hn with
  | paragraph alone c | header level alone c => exact (((nodes he hv h alone c).bind _).visit).bind _

end TooDeep

/-- A document that begins with the script which returns it never ends. -/
theorem tooDeep_nestedDocument {evaluator? : Option Evaluator} {evaluate : Evaluator} {expression : String}
    {d : Document} (he : evaluator? = some evaluate) (hv : evaluate expression = ⟨.ok (.document d), false⟩)
    (hd : d.BeginsWith expression) (profile : Profile) (limit : Nat) :
    TooDeep (nestedDocument evaluator? profile limit d) := by
  induction limit with
  | zero => exact fun _ _ => rfl
  | succ limit ih =>
    -- one level less is left for the document that the script returns again
    obtain ⟨n, r, hd, hn⟩ := hd
    rw [nestedDocument, hd]
    let s := Scope.ofDocument evaluator? profile (nestedDocument evaluator? profile limit) d
    have hs : s.evaluator? = evaluator? := expanding_evaluator? ..
    have hN : s.nested = nestedDocument evaluator? profile limit := expanding_nested ..
    exact ((TooDeep.begun (s := s) (hs.trans he) hv (hN ▸ ih)) hn r).ownNumbers

end Html

namespace Render

variable {α β : Type}

/-- From every state in which the token rests, on every working writer, the rendering goes too deep. -/
def TooDeep (m : Rendering α) : Prop :=
  ∀ p : Progress, p.traversal.Rests → ∀ {σ : Type} [Writer σ] [Gauged σ] {w : σ}, Works w →
    (Writing.run (m p) w).1 = .error .tooDeep

namespace TooDeep

theorem bind {m : Rendering α} (h : TooDeep m) (f : α → Rendering β) : TooDeep (m >>= f) := fun p hp _ _ _ _ hw =>
  congrArg Prod.fst (run_bind_error (h p hp hw) f).1

theorem flush_then {m : Rendering α} (h : TooDeep m) (profile : Profile) :
    TooDeep (Rendering.flush profile >>= fun _ => m) := by
  intro p hp _ _ _ w hw
  obtain ⟨hr, -⟩ := (Placed.flush p).comes.run hw
  rw [(run_bind_ok hr fun _ => m).1]
  exact h ⟨p.traversal, ∅⟩ hp (works_run _ hw)

theorem visit {m : Rendering Unit} (h : TooDeep m) : TooDeep (visit m) := by
  intro p hp _ _ _ w hw
  rw [visit_apply, hp.not_stops, hp.tick]
  exact h p hp hw

theorem element {t : Tag} (ht : DistinctNames t.attributes) {m : Rendering Unit} (h : TooDeep m) :
    TooDeep (element t m) := fun p hp _ _ _ _ hw =>
  (run_enclosed_error hw (.ofTag ht) (h p hp (works_run (Writing.calls (Call.ofTag t)) hw))).1

theorem ofPass {m : Html.Pass α} (h : Html.TooDeep m) : TooDeep (ofPass m) := by
  intro p hp _ _ _ w hw
  rw [Rendering.ofPass, h p.traversal hp]
  rfl

theorem ownNumbers {m : Rendering Unit} (h : TooDeep m) : TooDeep (ownNumbers m) := by
  intro p hp _ _ _ w hw
  let rest : Unit → Rendering Unit := fun _ =>
    Rendering.ofPass (modify fun t => { t with numbering := p.traversal.numbering })
  let q : Progress := { p with traversal := { p.traversal with numbering := ∅ } }
  rw [show Render.ownNumbers m p = (m >>= rest) q from rfl]
  exact h.bind rest q ⟨hp.cancelled, hp.fuse?, hp.watch⟩ hw

section

variable {s : Scope} {evaluate : Evaluator} {expression : String} {d : Document}
  (he : s.extensions.evaluator? = some evaluate) (hv : evaluate expression = ⟨.ok (.document d), false⟩)
  (h : TooDeep (s.nested d))
include he hv h

theorem script (st : Style) (alone : Bool) : TooDeep (script s st expression alone) := by
  intro p hp _ _ _ w hw
  have hs : Render.script s st expression alone p = (Rendering.flush s.profile >>= fun _ => s.nested d)
      { p with traversal := p.traversal.cancelIf false } := by
    simp only [Render.script, he, hv]
    rfl
  rw [hs, cancelIf_false]
  exact h.flush_then s.profile p hp hw

theorem begun (hh : ∀ alone c, Html.TooDeep (Html.nodes s.html (.inlineScript expression alone :: c)))
    {n : Node} (hn : n.BeginsWith expression) (r : List Node) (st : Style) : TooDeep (nodes s (n :: r) st) := by
  cases hn with
  | paragraph alone c =>
    have hc : TooDeep (nodes s (.inlineScript expression alone :: c) st) := (script he hv h st alone).visit.bind _
    exact ((((hc.bind _).element (padded_distinct _ _)).flush_then _).visit).bind _
  | header level alone c => exact ((((ofPass (hh alone c)).bind _).flush_then _).visit).bind _

end

end TooDeep

variable {S : Setting} {evaluate : Evaluator} {expression : String} {d : Document}
  (he : S.extensions.evaluator? = some evaluate) (hv : evaluate expression = ⟨.ok (.document d), false⟩)
  (hd : d.BeginsWith expression)
include he hv hd

/-- A document that begins with the script is left only if the document that the script returns is. -/
theorem tooDeep_included {limit : Nat} (h : TooDeep (scriptDocument S limit d)) {D : Document}
    (hD : D.BeginsWith expression) : TooDeep (included S (scriptDocument S limit)
      (Html.nestedDocument S.extensions.evaluator? S.dialect.profile limit) D) := by
  obtain ⟨n, r, hD, hn⟩ := hD
  rw [included_eq, ← scopeWithin_size]
  let s := scopeWithin S limit D D.footnotes.size []
  have hs : s.extensions.evaluator? = some evaluate :=
    (congrArg (fun S : Setting => S.extensions.evaluator?) (scopeWithin_setting ..)).trans he
  have hh (alone : Bool) (c : List Node) : Html.TooDeep (Html.nodes s.html (.inlineScript expression alone :: c)) := by
    have hi := Html.tooDeep_nestedDocument he hv hd S.dialect.profile limit
    refine Html.TooDeep.nodes (d := d) ?_ hv ?_ alone c
    · rw [scopeWithin_html, Html.expanding_evaluator?]
      exact he
    · rw [scopeWithin_html, Html.expanding_nested]
      exact hi
  have ho : TooDeep (nodes s (n :: r) .plain) := .begun hs hv (scopeWithin_nested .. ▸ h) hh hn r .plain
  rw [body, scopeWithin_document, hD]
  exact ((ho.bind _).bind _).ownNumbers

theorem tooDeep_scriptDocument (limit : Nat) : TooDeep (scriptDocument S limit d) := by
  induction limit with
  | zero => exact fun _ _ _ _ _ _ _ => rfl
  | succ limit ih => exact tooDeep_included he hv hd ih hd

/-- Nothing ends a rendering that meets a script which returns a document with the same script at its beginning. -/
theorem renderUntil_eq_tooDeep {D : Document} (hD : D.BeginsWith expression) (limit : Nat) (inclusion : Bool) {σ : Type}
    [Writer σ] [Gauged σ] {w : σ} (hw : Works w) :
    ((renderUntil S limit D inclusion none).run w).1 = .error .tooDeep := by
  have hi := tooDeep_included he hv hd (tooDeep_scriptDocument he hv hd limit) hD
  have hm : TooDeep (document S limit D inclusion) := by
    rw [document]
    split
    · exact hi
    · exact hi.element (root_distinct _)
  rw [renderUntil, run_renderFrom, hm ⟨.start none, ∅⟩ ⟨rfl, rfl, rfl⟩ hw, run_unwound_error]

end Render

/-- A script that returns a paragraph with the same script in it, from a table with no other entry. -/
theorem renderUntil_self_nesting :
    let loop := Document.ofNodes [.paragraph [.inlineScript "x" false]]
    let label := Document.ofNodes [.header 1 [.inlineScript "x" false]]
    let S := tabledSetting [("x", ⟨.ok (.document loop), false⟩)]
    ∀ limit, ((renderUntil S limit loop true none).run TreeBuilder.empty).1 = .error .tooDeep ∧
      ((renderUntil S limit label true none).run TreeBuilder.empty).1 = .error .tooDeep := by
  intro loop label S limit
  have hv : Evaluator.ofTable [("x", ⟨.ok (.document loop), false⟩)] "x" = ⟨.ok (.document loop), false⟩ := rfl
  have hl : loop.BeginsWith "x" := ⟨_, [], rfl, .paragraph false []⟩
  have h {D : Document} (hD : D.BeginsWith "x") :=
    Render.renderUntil_eq_tooDeep (S := S) rfl hv hl hD limit true (w := TreeBuilder.empty) trivial
  exact ⟨h hl, h ⟨_, [], rfl, .header 1 false []⟩⟩

end XamlDoc
