import XamlDoc.Proofs.Render.Cancellation
import XamlDoc.Proofs.Render.Isolation
import XamlDoc.Proofs.Render.Placement
import XamlDoc.Proofs.Render.Siblings

/-!
# Blocks and their neighbours

A block writes the runs that wait before it and leaves none behind, so it is rendered alike whatever stands before
and after it. Node lists of which one ends or the other begins with a block are written one after the other as each
of them is on its own, in a document as in a wrapper around them.
-/

namespace XamlDoc

open Markup Gauged
open Markup.Content (allCalls allCalls_append)
open Rendering Layout

/-! ### Tokens at rest -/

theorem Watch.after_always (l : List Bool) : always.after l = always := by
  induction l with
  | nil => rfl
  | cons fired r ih => exact ih

section

variable {x : Extensions} {σ : Type} [Writer σ]

/-- A token that rests goes on resting where extensions leave it alone. -/
theorem Traversal.Rests.of_follows {α : Type} {m : Rendering α} (hm : Rendering.Follows x σ α m) (hi : x.Idle σ)
    {p q : Progress} (hp : p.traversal.Rests) {w : σ} {a : α} (h : (Writing.run (m p) w).1 = .ok (a, q)) :
    q.traversal.Rests := by
  let unwatched : Progress := { p with traversal := { p.traversal with watch := .never } }
  obtain ⟨fired, ht⟩ := hm unwatched w rfl
  have hq : unwatched.traversal.Quiet := Prod.ext hp.cancelled hp.fuse?
  obtain ⟨hn, hend⟩ := ht.quiet hi hq
  have hf : p.traversal.watch.finds fired = false := by
    rw [hp.watch, Bool.eq_false_iff]
    exact fun hf => hn (Watch.finds_always_iff.1 hf)
  have hs := (ht.inStep (q := p) ⟨⟨rfl, rfl, fun _ => rfl⟩, rfl⟩ hf).ends
  rw [h] at hs
  generalize hr : (Writing.run (m unwatched) w).1 = r at hs
  cases hs with
  | @ok _ q' _ hb hw =>
    rw [hp.watch, Watch.after_always] at hw
    have ht := hb.traversal.token fun hv => by rw [hw] at hv; cases hv
    have hq' : q.traversal.token = (false, none) := ht.trans (hend a q' hr)
    exact ⟨congrArg Prod.fst hq', congrArg Prod.snd hq', hw⟩

end

/-! ### Blocks -/

/-- After a rendering that leaves no runs there is nothing to write. -/
theorem Drains.flush {m : Rendering Unit} (h : Drains m) (profile : Profile) :
    (m >>= fun _ => Rendering.flush profile) = m := by
  have hd : (dropRuns >>= fun _ => Rendering.flush profile) = dropRuns := rfl
  rw [← h, bind_assoc, hd]

namespace Settles

theorem ofWriting (w : Writing (Except WriteError Unit)) : Settles (ofWriting w) := by
  intro t
  rw [bind_apply, Rendering.ofWriting, Writing.bind_assoc]
  congr 1
  funext answer
  cases answer <;> rfl

theorem afterQuiet {α : Type} (w : Writing α) {f : α → Rendering Unit} (hf : ∀ a, Settles (f a)) :
    Settles (ofQuiet w >>= f) := by
  intro t
  rw [bind_assoc, bind_apply, bind_apply, Rendering.ofQuiet, Writing.bind_assoc, Writing.bind_assoc]
  congr 1
  funext a
  exact hf a t

theorem afterPass {α : Type} (m : Html.Pass α) {f : α → Rendering Unit} (hf : ∀ a, Settles (f a)) :
    Settles (ofPass m >>= f) := by
  intro t
  rw [bind_assoc, bind_apply, bind_apply, Rendering.ofPass]
  cases m t with
  | ok r => exact hf r.1 r.2
  | error halt => rfl

variable (d : Dialect)

theorem flushed (content : Rendering Unit) : Settles (flushed d content) := (drains_flushed d content).settles

theorem stacked (content : Rendering Unit) : Settles (stacked d content) := .element _ (.flushed d content)

theorem contained (part : Part) (st : Style) : Settles (contained d part st) := by
  rw [Layout.contained]
  split
  · exact .flushed d _
  · exact .stacked d _

theorem inRows {α : Type} {f : Nat → α → Rendering Unit} (hf : ∀ row a, Settles (f row a)) (items : List α) :
    Settles (inRows f items) := by
  refine .inOrder fun m hm => ?_
  obtain ⟨row, hr, rfl⟩ := List.mem_mapIdx.1 hm
  exact hf _ _

theorem grid (spacing : String) (columns : List String) (rows : Nat) {cells : Rendering Unit}
    (h : Settles cells) : Settles (grid spacing columns rows cells) := (emit _).seq (h.seq (emit _))

theorem list (st : Style) (items : List Marked) : Settles (list d st items) :=
  .element _ <| grid _ _ _ <| .inRows (fun _ _ => (Settles.element _ (emit _)).seq (.element _ (.flushed d _))) items

theorem definitionList (st : Style) (groups : List (DefinitionGroup Part)) :
    Settles (definitionList d st groups) := by
  refine .inOrder fun m hm => ?_
  obtain ⟨g, -, rfl⟩ := List.mem_map.1 hm
  exact (Settles.inRows (fun _ _ => .element _ (.flushed d _)) _).seq
    (.inRows (fun _ _ => .element _ (.contained d _ _)) _)

theorem table (t : Table Part) : Settles (table d t) := by
  rw [table_eq]
  refine .afterQuiet _ fun depth => (emit _).seq (.seq (.inRows (fun row cells => ?_) _) (.ofWriting _))
  refine .inOrder fun m hm => ?_
  obtain ⟨p, -, rfl⟩ := List.mem_map.1 hm
  refine .element _ (.element _ ?_)
  cases p.cell? with
  | none => exact fun _ => rfl
  | some cell => exact .contained d _ _

theorem codeRows (st : Style) (rows : List String) : Settles (codeRows d st rows) := by
  refine .element _ (.element _ (.inOrder fun m hm => ?_))
  obtain ⟨row, -, rfl⟩ := List.mem_map.1 hm
  exact .emit _

theorem html (s : Scope) (st : Style) (extra : List Attribute) (l : List Node) :
    Settles (Render.html s st extra l) :=
  .afterPass _ fun _ => .element _ (.element _ (.emit _))

end Settles

namespace Render

variable {s : Scope} {m : Rendering Unit} {st : Style}

theorem drains_block (hm : Settles m) : Drains (block s m) := by
  have hf : Drains (do flush s.profile; m) := by
    have hd : (dropRuns >>= fun _ => m >>= fun _ => dropRuns) = dropRuns >>= fun _ => m :=
      funext fun p => hm p.traversal
    show ((flush s.profile >>= fun _ => m) >>= fun _ => dropRuns) = (flush s.profile >>= fun _ => m)
    rw [bind_assoc, ← drains_flush s.profile, bind_assoc, bind_assoc, hd]
  funext p
  rw [block, bind_apply, visit_apply]
  split
  · rfl
  · rw [← bind_apply]
    exact congrFun hf _

/-- A block that begins with no runs before it begins as it would after writing them. -/
theorem flush_block {p : Progress} (hp : p.traversal.Rests) :
    (flush s.profile >>= fun _ => block s m) p = block s m p := by
  have hb (q : Progress) (hq : q.traversal.Rests) : block s m q = (flush s.profile >>= fun _ => m) q := by
    rw [block, visit_apply, hq.not_stops, hq.tick, if_neg Bool.false_ne_true]
  have hf : flush s.profile p = ofWriting (Writing.calls (p.runs.calls s.profile)) ⟨p.traversal, ∅⟩ := rfl
  rw [hb p hp, bind_apply, bind_apply, hf, ofWriting, Writing.bind_assoc, Writing.bind_assoc]
  congr 1
  funext answer
  cases answer with
  | error e => rfl
  | ok a => exact hb ⟨p.traversal, ∅⟩ hp

/-- A node that is no span is a block, and its content leaves no runs. -/
theorem node_eq_block (hc : s.extensions.code = []) {n : Node} (hn : n.isInline = false) (st : Style) :
    ∃ m, node s n st = block s m ∧ Settles m := by
  induction n using Node.induction generalizing st with
  | step n ih =>
    cases n with
    | paragraph c => exact ⟨_, rfl, .element _ (.flushed _ _)⟩
    | header _ c | htmlBlock c => exact ⟨_, rfl, .html s _ _ _⟩
    | bulletList items | numberedList items | taskList items => exact ⟨_, rfl, .list _ _ _⟩
    | definitionList g => exact ⟨_, rfl, .definitionList _ _ _⟩
    | table t => exact ⟨_, node_table s t st, .table _ _⟩
    | blockQuote c | insertBlocks c | deleteBlocks c => exact ⟨_, rfl, .element _ (.element _ (.stacked _ _))⟩
    | codeBlock b =>
      have hn : b.language.bind s.extensions.codeHandler? = none := by
        cases b.language <;> simp [Extensions.codeHandler?, hc]
      refine ⟨_, rfl, ?_⟩
      rw [code, hn]
      exact .codeRows _ _ _
    | horizontalRule | sectionSeparator => exact ⟨_, rfl, .emit _⟩
    | aligned a c => exact ⟨_, rfl, .stacked _ _⟩
    | singleChild c =>
      rw [Node.isInline] at hn
      obtain ⟨m, hm, hs⟩ := ih c (List.mem_singleton_self c) hn st
      refine ⟨node s c st, ?_, hm ▸ (drains_block hs).settles⟩
      rw [node, spanOrBlock, hn, if_neg Bool.false_ne_true]
    | nestedBlock c =>
      refine ⟨flushed s.dialect (nodes s c st), ?_, .flushed _ _⟩
      rw [node, hn, if_neg Bool.false_ne_true]
    | standalone c => cases c <;> exact ⟨_, rfl, .element _ (.flushed _ _)⟩
    | commentBlock _ | invisibleBreak => exact ⟨_, rfl, fun _ => rfl⟩
    | _ => simp [Node.isInline] at hn

/-! ### Node lists -/

theorem nodes_append (s : Scope) (xs ys : List Node) (st : Style) :
    nodes s (xs ++ ys) st = nodes s xs st >>= fun _ => nodes s ys st := by
  induction xs with
  | nil => rfl
  | cons n r ih =>
    show (node s n st >>= fun _ => nodes s (r ++ ys) st) = (node s n st >>= fun _ => nodes s r st) >>= _
    rw [ih, bind_assoc]

theorem settles_nodes (hc : s.extensions.code = []) {l : List Node} (hl : ∀ n ∈ l.getLast?, n.isInline = false) :
    Settles (nodes s l st) := by
  obtain rfl | ⟨r, n, rfl⟩ := List.eq_nil_or_concat l
  · exact fun _ => rfl
  · obtain ⟨m, hm, hs⟩ := node_eq_block hc (hl n (by simp)) st
    have hn : nodes s [n] st = block s m := bind_pure_unit.trans hm
    rw [List.concat_eq_append, nodes_append, hn]
    exact ((drains_block hs).after _).settles

/-- Nodes of which the first is a block begin as they would after writing the runs before them. -/
theorem flush_nodes (hc : s.extensions.code = []) {l : List Node} (hl : ∀ n ∈ l.head?, n.isInline = false)
    {p : Progress} (hp : p.traversal.Rests) :
    (flush s.profile >>= fun _ => flushed s.dialect (nodes s l st)) p = flushed s.dialect (nodes s l st) p := by
  cases l with
  | nil => exact congrFun (Drains.flush (drains_flush s.profile) s.profile) p
  | cons n r =>
    obtain ⟨m, hm, -⟩ := node_eq_block hc (hl n rfl) st
    have hn : flushed s.dialect (nodes s (n :: r) st) = block s m >>= fun _ => flushed s.dialect (nodes s r st) := by
      rw [← hm]
      exact bind_assoc _ _ _
    rw [hn, ← bind_assoc, bind_apply, flush_block hp, ← bind_apply]

end Render

/-! ### What a rendering yields -/

/-- In any place, the writing ends with the value and writes the contents, or ends with the error. -/
inductive Yields {α : Type} (m : Writing (Except RenderError α)) (a : α) : Except RenderError (List Content) → Prop
  | ok {k : List Content} : Comes m (.ok a) (allCalls k) → Yields m a (.ok k)
  | error {e : RenderError} : (∀ {σ : Type} [Writer σ] [Gauged σ] (w : σ), Works w → (m.run w).1 = .error e) →
    Yields m a (.error e)

namespace Yields

variable {α β : Type} {x y : Except RenderError (List Content)}

theorem congr {m n : Writing (Except RenderError α)} {a : α} (h : Yields m a x)
    (hn : ∀ {σ : Type} [Writer σ] [Gauged σ] (w : σ), Works w → n.run w = m.run w ∧ n.made w = m.made w) :
    Yields n a x := by
  cases h with
  | error h => exact error fun w hw => (congrArg Prod.fst (hn w hw).1).trans (h w hw)
  | ok h =>
    refine ok ⟨fun {σ} _ _ w hw => ?_⟩
    obtain ⟨hr, hm⟩ := hn w hw
    rw [hr, hm]
    exact h.run hw

/-- One after the other. -/
theorem bind {m : Rendering α} {f : α → Rendering β} {p q : Progress} {a : α} {b : β × Progress}
    (hm : Yields (m p) (a, q) x) (hf : Yields (f a q) b y) :
    Yields ((m >>= f) p) b (do pure ((← x) ++ (← y))) := by
  rw [bind_apply]
  cases hm with
  | error h =>
    refine error fun w hw => ?_
    rw [Writing.run_bind, h w hw]
    rfl
  | @ok k hm =>
    cases hf with
    | error h =>
      refine error fun w hw => ?_
      rw [Writing.run_bind, (hm.run hw).1]
      exact h _ (works_run (m p) hw)
    | @ok l hf =>
      refine ok (k := k ++ l) ?_
      rw [allCalls_append]
      exact Comes.bind hm hf

theorem flush (profile : Profile) (p : Progress) :
    Yields (Rendering.flush profile p) ((), ⟨p.traversal, ∅⟩) (.ok (p.runs.contents profile)) :=
  .ok (Placed.flush p).comes

theorem element {t : Tag} (ht : DistinctNames t.attributes) {content : Rendering Unit} {p q : Progress}
    (hc : Yields (content p) ((), q) x) :
    Yields (Rendering.element t content p) ((), q) (x.map fun k => [.element t.name t.attributes k]) := by
  have ho : Opening 1 (Call.ofTag t) := .ofTag ht
  cases hc with
  | error h =>
    exact error fun w hw => (run_enclosed_error hw ho (h _ (works_run (Writing.calls (Call.ofTag t)) hw))).1
  | ok hc =>
    refine ok ⟨fun {σ} _ _ w hw => ?_⟩
    obtain ⟨hr, hm⟩ := hc.run (works_run (Writing.calls (Call.ofTag t)) hw)
    obtain ⟨hr, hm⟩ := run_enclosed hw ho (closes_one _) hr hm
    refine ⟨hr, hm.trans ?_⟩
    simp [allCalls, Content.calls]

/-- A rendering that comes to its end does nothing after the document, and one that fails ends with the same error. -/
theorem of_document {setting : Setting} {limit : Nat} {d : Document} {inclusion : Bool} {t : Traversal}
    {r : Unit × Progress} (h : Yields (Render.document setting limit d inclusion ⟨t, ∅⟩) r x) :
    Yields (renderFrom setting limit d inclusion t) () x := by
  cases h with
  | error h =>
    refine error fun w hw => ?_
    rw [run_renderFrom, h w hw, run_unwound_error]
  | ok h =>
    refine ok ⟨fun {σ} _ _ w hw => ?_⟩
    obtain ⟨hr, hm⟩ := h.run hw
    have hok : (Writing.run (renderFrom setting limit d inclusion t) w).1 = .ok () := by
      rw [run_renderFrom, hr]
      rfl
    exact ⟨hok, (Render.document_of_renderFrom_ok hok).1.trans hm⟩

/-- The tree built by a rendering that comes to its end. -/
theorem finish {m : Writing (Except RenderError Unit)} (h : Yields m () x) (hr : (m.run TreeBuilder.empty).1 = .ok ()) :
    ∃ k, x = .ok k ∧ (m.run TreeBuilder.empty).2.finish = k := by
  cases h with
  | error h => exact nomatch (h TreeBuilder.empty trivial).symm.trans hr
  | @ok k h =>
    refine ⟨k, rfl, ?_⟩
    rw [Writing.run_eq_after, (h.run (w := TreeBuilder.empty) trivial).2, TreeBuilder.finish_allCalls]

theorem of_placed {profile : Profile} {m : Writing (Except RenderError α)} {r : Except RenderError α}
    {cs : List Call} (h : Placed profile m r cs) {a : α} (ha : ∀ b, r = .ok b → b = a) : ∃ x, Yields m a x := by
  cases r with
  | error e => exact ⟨.error e, .error fun _ hw => (h.comes.run hw).1⟩
  | ok b =>
    obtain rfl := ha b rfl
    obtain ⟨k, rfl, -⟩ := h.whole rfl
    exact ⟨.ok k, .ok h.comes⟩

end Yields

/-! ### In a document without footnotes -/

namespace Render

variable {setting : Setting} (hx : setting.extensions.BuiltIn) (he : Html.Idle setting.extensions.evaluator?)
  (limit : Nat) {d : Document} (hd : d.footnotes = ∅) (levels : Nat) (expanding : List String)
include hx he hd

/-- Nodes leave the numbers and the token as they were. -/
theorem nodes_traversal {l : List Node} {st : Style} {σ : Type} [Writer σ] {w : σ} {p q : Progress}
    (hp : p.traversal.Rests)
    (h : (Writing.run (nodes (scopeWithin setting limit d levels expanding) l st p) w).1 = .ok ((), q)) :
    q.traversal = p.traversal := by
  have hr : q.traversal.Rests :=
    hp.of_follows (Rendering.Follows.closed.nodesWithin limit d levels expanding l st) (hx.idle he) h
  have fits : Comparison.atMost.Fits setting.extensions σ fun _ => false :=
    .inr ⟨fun _ => rfl, fun _ => List.nil_subset _⟩
  have offers (m : Node) :
      (outerScope setting limit d).OffersNode (Adds .atMost σ) (fun _ => false) m := offersNode_of_fits fits m
  have ha := (silent_outerScope setting limit d).nodes (fun _ _ m _ => offers m) levels expanding
    (fun m _ => offers m) (l := l) st
  obtain ⟨k, hk, hn⟩ := ha p w () q h
  have hprinted (x : ShownLink) : Scope.Silent.printed (outerScope setting limit d) (fun _ => false) levels expanding x
      = [] := by
    have hget : (outerScope setting limit d).document.footnotes.get? x.link.key = none := by
      show d.footnotes.get? _ = none
      rw [hd]
      rfl
    cases levels <;> simp only [Scope.Silent.printed, Footnotes.printed, hget]
  rw [List.flatMap_eq_nil_iff.2 fun x _ => hprinted x] at hk
  rw [List.subset_nil.1 hk] at hn
  obtain ⟨⟨numbering, cancelled, fuse?, watch⟩, runs⟩ := p
  obtain ⟨⟨numbering', cancelled', fuse?', watch'⟩, runs'⟩ := q
  obtain ⟨rfl, rfl, rfl⟩ := hp
  obtain ⟨rfl, rfl, rfl⟩ := hr
  exact congrArg (Traversal.mk · _ _ _) hn

theorem yields_flushed (l : List Node) (st : Style) {t : Traversal} (ht : t.Rests) :
    let s := scopeWithin setting limit d levels expanding
    ∃ x, Yields (flushed s.dialect (nodes s l st) ⟨t, ∅⟩) ((), ⟨t, ∅⟩) x := by
  intro s
  obtain ⟨r, cs, h⟩ := (Placeless.closed hx).nodesWithin limit d levels expanding l st ⟨t, ∅⟩
  obtain ⟨q, hq⟩ : ∃ q : Progress, q.traversal = t ∧ ∀ b, r = .ok b → b = ((), q) := by
    cases r with
    | error e => exact ⟨⟨t, ∅⟩, rfl, nofun⟩
    | ok b =>
      have hr := (h.comes.run (w := TreeBuilder.empty) trivial).1
      exact ⟨b.2, nodes_traversal hx he limit hd levels expanding ht hr, fun c hc => (Except.ok.inj hc).symm⟩
  obtain ⟨rfl, hb⟩ := hq
  obtain ⟨x, hn⟩ := Yields.of_placed h hb
  exact ⟨_, hn.bind (Yields.flush s.profile q)⟩

/-- Node lists of which one ends or the other begins with a block, one after the other. -/
theorem yields_append {xs ys : List Node} (hxy : (∀ n ∈ xs.getLast?, n.isInline = false) ∨
      ∀ n ∈ ys.head?, n.isInline = false) (st : Style) {t : Traversal} (ht : t.Rests)
    {x y : Except RenderError (List Content)} :
    let s := scopeWithin setting limit d levels expanding
    let content (l : List Node) := flushed s.dialect (nodes s l st) ⟨t, ∅⟩
    Yields (content xs) ((), ⟨t, ∅⟩) x → Yields (content ys) ((), ⟨t, ∅⟩) y →
      Yields (content (xs ++ ys)) ((), ⟨t, ∅⟩) (do pure ((← x) ++ (← y))) := by
  intro s content hX hY
  have hc : s.extensions.code = [] := by
    rw [Scope.extensions, scopeWithin_setting]
    exact hx.1
  have split : flushed s.dialect (nodes s (xs ++ ys) st) =
      nodes s xs st >>= fun _ => flushed s.dialect (nodes s ys st) := by
    rw [nodes_append]
    exact bind_assoc _ _ _
  have apart : (flushed s.dialect (nodes s xs st) >>= fun _ => flushed s.dialect (nodes s ys st)) =
      nodes s xs st >>= fun _ => Rendering.flush s.profile >>= fun _ => flushed s.dialect (nodes s ys st) :=
    bind_assoc _ _ _
  refine (Yields.bind (m := flushed s.dialect (nodes s xs st)) (f := fun _ => flushed s.dialect (nodes s ys st))
    hX hY).congr fun {σ} _ _ w _ => ?_
  show Writing.run (flushed _ _ _) w = _ ∧ Writing.made (flushed _ _ _) w = _
  rw [split, apart]
  obtain hl | hf := hxy
  · have hs : Settles (nodes s xs st) := settles_nodes hc hl
    have hd := hs.bind (fun _ => flushed s.dialect (nodes s ys st)) t
    have hd' := hs.bind (fun _ => Rendering.flush s.profile >>= fun _ => flushed s.dialect (nodes s ys st)) t
    rw [hd.trans hd'.symm]
    exact ⟨rfl, rfl⟩
  · rw [bind_apply, bind_apply, Writing.run_bind, Writing.made_bind, Writing.run_bind, Writing.made_bind]
    cases hr : (Writing.run (nodes s xs st ⟨t, ∅⟩) w).1 with
    | error e => exact ⟨rfl, rfl⟩
    | ok r =>
      have hq : r.2.traversal = t := nodes_traversal hx he limit hd levels expanding ht hr
      have hfl : (Rendering.flush s.profile >>= fun _ => flushed s.dialect (nodes s ys st)) r.2 =
          flushed s.dialect (nodes s ys st) r.2 := flush_nodes hc hf (hq ▸ ht)
      simp only [hfl, and_self]

end Render

/-! ### Wrappers -/

/-- The nodes that put others into a panel or a stack. -/
inductive Wrapper where
  | panel (kind : PanelKind)
  | aligned (a : BlockAlignment)

namespace Wrapper

def node : Wrapper → List Node → Node
  | .panel .quote, l => .blockQuote l
  | .panel .insert, l => .insertBlocks l
  | .panel .delete, l => .deleteBlocks l
  | .aligned a, l => .aligned a l

/-- The style inside. -/
def style (st : Style) : Wrapper → Style
  | .panel _ => st
  | .aligned a => { st with alignment := a.text }

/-- The elements around the content, from the outermost inwards. -/
def tags (d : Dialect) (st : Style) : Wrapper → List Tag
  | .panel kind => [⟨"ContentView", ("Padding", d.spacing .quoteOuter) :: alignmentOptions st.alignment⟩,
      ⟨"Frame", [("Padding", d.spacing .quotePanel), ("BorderColor", d.panelBorder kind)]⟩, d.stack]
  | .aligned _ => [d.stack]

/-- Contents in the elements of the wrapper. -/
def around (d : Dialect) (st : Style) (W : Wrapper) (k : List Content) : List Content :=
  (W.tags d st).foldr (fun t k => [.element t.name t.attributes k]) k

theorem node_eq_block (W : Wrapper) (s : Scope) (l : List Node) (st : Style) : Render.node s (W.node l) st =
    Render.block s ((W.tags s.dialect st).foldr element (flushed s.dialect (Render.nodes s l (W.style st)))) := by
  rcases W with ⟨_ | _ | _⟩ | a <;> rfl

theorem yields_tags {tags : List Tag} (ht : ∀ t ∈ tags, DistinctNames t.attributes) {content : Rendering Unit}
    {p q : Progress} {x : Except RenderError (List Content)} (hc : Yields (content p) ((), q) x) :
    Yields (tags.foldr element content p) ((), q)
      (x.map (tags.foldr fun t k => [.element t.name t.attributes k])) := by
  induction tags with
  | nil => cases x <;> exact hc
  | cons t r ih =>
    have h := (ih fun u hu => ht u (List.mem_cons_of_mem t hu)).element (ht t (List.mem_cons_self ..))
    cases x <;> exact h

theorem tags_distinct (W : Wrapper) (d : Dialect) (st : Style) : ∀ t ∈ W.tags d st, DistinctNames t.attributes := by
  cases W with
  | panel kind =>
    simp only [tags, List.forall_mem_cons]
    exact ⟨padded_distinct _ _, by simp [DistinctNames], stack_distinct d, nofun⟩
  | aligned a =>
    simp only [tags, List.forall_mem_cons]
    exact ⟨stack_distinct d, nofun⟩

/-- A wrapper yields the runs that wait before it and then its elements around what its content yields on its own. -/
theorem yields (W : Wrapper) (s : Scope) (l : List Node) (st : Style) {p : Progress} (hp : p.traversal.Rests)
    {x : Except RenderError (List Content)} (hx : Yields
      (flushed s.dialect (Render.nodes s l (W.style st)) ⟨p.traversal, ∅⟩) ((), ⟨p.traversal, ∅⟩) x) :
    Yields (Render.node s (W.node l) st p) ((), ⟨p.traversal, ∅⟩)
      (x.map fun k => p.runs.contents s.profile ++ W.around s.dialect st k) := by
  rw [W.node_eq_block, Render.block, Render.visit_apply, hp.not_stops, hp.tick, if_neg Bool.false_ne_true]
  have h := (Yields.flush s.profile p).bind (f := fun _ => (W.tags s.dialect st).foldr element
    (flushed s.dialect (Render.nodes s l (W.style st)))) (yields_tags (W.tags_distinct s.dialect st) hx)
  cases x <;> exact h

end Wrapper

/-! ### Documents -/

namespace Render

/-- A document without footnotes, to be included in another, is what its nodes are. -/
theorem yields_render {setting : Setting} (limit : Nat) {d : Document} (hd : d.footnotes = ∅) (l : List Node)
    {x : Except RenderError (List Content)} :
    let s := scopeWithin setting limit d 0 []
    Yields (flushed s.dialect (nodes s l .plain) ⟨.start none, ∅⟩) ((), ⟨.start none, ∅⟩) x →
      Yields (render setting limit { d with nodes := l } true false) () x := by
  intro s hx
  obtain ⟨ns, footnotes, references, detail, metadata⟩ := d
  obtain rfl : footnotes = ∅ := hd
  let nested := scriptDocument setting limit
  let nestedHtml := Html.nestedDocument setting.extensions.evaluator? setting.dialect.profile limit
  let d : Document := ⟨l, ∅, references, detail, metadata⟩
  have hs : scopeOf setting nested nestedHtml d = s.withNodes l := rfl
  let rest : Unit → Rendering Unit := fun _ => footnoteSection (s.withNodes l) >>= fun _ =>
    ofPass (modify fun t => { t with numbering := ∅ })
  have hb : document setting limit d true ⟨.start none, ∅⟩ =
      (flushed s.dialect (nodes s l .plain) >>= rest) ⟨.start none, ∅⟩ := by
    have ho (m : Rendering Unit) : ownNumbers m ⟨.start none, ∅⟩ =
        (m >>= fun _ => ofPass (modify fun t => { t with numbering := ∅ })) ⟨.start none, ∅⟩ := rfl
    show included setting nested nestedHtml d _ = _
    rw [included_eq, hs, body, ho, bind_assoc, nodes_withNodes]
    rfl
  -- no footnote has a number, so nothing comes after the nodes
  have hr : Yields (rest () ⟨.start none, ∅⟩) ((), ⟨.start none, ∅⟩) (.ok []) := .ok (Comes.done _)
  have hd : Yields (document setting limit d true ⟨.start none, ∅⟩) ((), ⟨.start none, ∅⟩) x := by
    have h := hx.bind (f := rest) hr
    rw [← hb] at h
    cases x with
    | error e => exact h
    | ok k => exact (congrArg Except.ok (List.append_nil k) : (.ok (k ++ []) : Except RenderError _) = .ok k) ▸ h
  exact hd.of_document

/-- In a document without footnotes, let one node list end or another begin with a block. Rendered to be included,
the two lists together are written as the one and then the other, each as it is on its own, and fail as the first of
them that fails. So are they inside a quotation, a panel for insertions or deletions and an alignment, whatever is
around that: it leaves no runs, and the rendering goes on from the same state. -/
theorem blocks_independent {setting : Setting} (hx : setting.extensions.BuiltIn)
    (he : Html.Idle setting.extensions.evaluator?) (limit : Nat) {d : Document} (hd : d.footnotes = ∅)
    {xs ys : List Node}
    (hxy : (∀ n ∈ xs.getLast?, n.isInline = false) ∨ ∀ n ∈ ys.head?, n.isInline = false) :
    let included (l : List Node) := render setting limit { d with nodes := l } true false
    let tree (l : List Node) := (included l).run TreeBuilder.empty
    ((tree xs).1 = .ok () → (tree ys).1 = .ok () → (tree (xs ++ ys)).1 = .ok () ∧
      (tree (xs ++ ys)).2.finish = (tree xs).2.finish ++ (tree ys).2.finish) ∧
    (∃ x y, Yields (included xs) () x ∧ Yields (included ys) () y ∧
      Yields (included (xs ++ ys)) () (do pure ((← x) ++ (← y)))) ∧
    ∀ (levels : Nat) (expanding : List String) (W : Wrapper) (st : Style) (p : Progress), p.traversal.Rests →
      let s := scopeWithin setting limit d levels expanding
      let wrapped (l : List Node) := node s (W.node l) st p
      let around (k : List Content) := p.runs.contents s.profile ++ W.around s.dialect st k
      let after : Unit × Progress := ((), ⟨p.traversal, ∅⟩)
      ∃ x y : Except RenderError (List Content), Yields (wrapped xs) after (x.map around) ∧
        Yields (wrapped ys) after (y.map around) ∧
        Yields (wrapped (xs ++ ys)) after ((do pure ((← x) ++ (← y))).map around) := by
  intro included tree
  have start : (Traversal.start none).Rests := ⟨rfl, rfl, rfl⟩
  have whole : ∃ x y, Yields (included xs) () x ∧ Yields (included ys) () y ∧
      Yields (included (xs ++ ys)) () (do pure ((← x) ++ (← y))) := by
    obtain ⟨x, hX⟩ := yields_flushed hx he limit hd 0 [] xs .plain start
    obtain ⟨y, hY⟩ := yields_flushed hx he limit hd 0 [] ys .plain start
    have hXY := yields_append hx he limit hd 0 [] hxy .plain start hX hY
    exact ⟨x, y, yields_render limit hd xs hX, yields_render limit hd ys hY, yields_render limit hd _ hXY⟩
  refine ⟨fun hX hY => ?_, whole, fun levels expanding W st p hp => ?_⟩
  · obtain ⟨x, y, hx, hy, hxy⟩ := whole
    obtain ⟨k, rfl, hk⟩ := hx.finish hX
    obtain ⟨l, rfl, hl⟩ := hy.finish hY
    cases hxy with
    | ok h =>
      obtain ⟨hr, -⟩ := h.run (w := TreeBuilder.empty) trivial
      obtain ⟨j, hj, hf⟩ := (Yields.ok h).finish hr
      cases hj
      exact ⟨hr, by rw [hf, hk, hl]⟩
  · intro s wrapped around after
    obtain ⟨x, hX⟩ := yields_flushed hx he limit hd levels expanding xs (W.style st) hp
    obtain ⟨y, hY⟩ := yields_flushed hx he limit hd levels expanding ys (W.style st) hp
    have hXY := yields_append hx he limit hd levels expanding hxy (W.style st) hp hX hY
    exact ⟨x, y, W.yields s xs st hp hX, W.yields s ys st hp hY, W.yields s (xs ++ ys) st hp hXY⟩

def quoteBefore : List Node := [.text "a", .blockQuote [.inlineScript "f()" false, .text "b"]]

def textAfter : List Node := [.text "c", .inlineHtml "<i>", .detailsReference]

/-- A quotation in which a script returns a document, before a text, both with the same detail document. -/
theorem blocks_independent_quoteBefore :
    let setting : Setting :=
      ⟨.ofKind .xamarinForms, Extensions.standard.withEvaluator fun _ => ⟨.ok (.document nestedNote), false⟩⟩
    let d := (Document.ofNodes []).withDetail nestedNote
    let tree (l : List Node) := (render setting 2 { d with nodes := l } true false).run TreeBuilder.empty
    setting.extensions.BuiltIn ∧ Html.Idle setting.extensions.evaluator? ∧ d.footnotes = ∅ ∧
      (∀ n ∈ quoteBefore.getLast?, n.isInline = false) ∧
      (tree (quoteBefore ++ textAfter)).2.finish = (tree quoteBefore).2.finish ++ (tree textAfter).2.finish ∧
      ∃ x y : Except RenderError (List Content),
        Yields (node (scopeWithin setting 2 d 0 []) (.insertBlocks (quoteBefore ++ textAfter)) .plain
          ⟨.start none, ∅⟩) ((), ⟨.start none, ∅⟩)
          ((do pure ((← x) ++ (← y))).map (Wrapper.around setting.dialect .plain (.panel .insert))) := by
  intro setting d tree
  have hx : setting.extensions.BuiltIn := builtIn_standard
  have he : Html.Idle setting.extensions.evaluator? := by
    intro evaluate h
    cases h
    exact fun _ => rfl
  have hl : ∀ n ∈ quoteBefore.getLast?, n.isInline = false := by
    intro n hn
    cases hn
    rfl
  have h : (∀ n ∈ quoteBefore.getLast?, n.isInline = false) ∨ ∀ n ∈ textAfter.head?, n.isInline = false := .inl hl
  obtain ⟨ht, -, hw⟩ := blocks_independent hx he 2 (d := d) rfl h
  obtain ⟨x, y, -, -, hxy⟩ := hw 0 [] (.panel .insert) .plain ⟨.start none, ∅⟩ ⟨rfl, rfl, rfl⟩
  have hq : (tree quoteBefore).1 = .ok () := by decide
  have ha : (tree textAfter).1 = .ok () := by decide
  exact ⟨hx, he, rfl, hl, (ht hq ha).2, x, y, hxy⟩

end Render

end XamlDoc
