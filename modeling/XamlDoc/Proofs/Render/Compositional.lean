import XamlDoc.Proofs.Document.Contents
import XamlDoc.Proofs.Markup.Run
import XamlDoc.Proofs.Render.Pieces
import XamlDoc.Render.Document

/-!
# Compositional properties of renderings

Layouts are made of few pieces: whole contents, elements around a rendering, and steps that write
nothing. A compositional property holds of the pieces and is kept by putting them together. It may
speak of a list of keys that comes with a rendering; when renderings are put together, so are their
keys. Every layout has a compositional property if the parts laid out have it.
-/

namespace XamlDoc

open Markup (Attribute Avoids Call DistinctNames Opening Tag Whole Writing avoids_leaf)

/-! ### Sequences -/

namespace Rendering

variable {α β : Type}

theorem bind_apply (m : Rendering α) (f : α → Rendering β) (p : Progress) :
    (m >>= f) p = Writing.bind (m p) fun
      | .ok (a, p) => f a p
      | .error e => .done (.error e) := by
  show Writing.bind (m p) _ = _
  congr 1
  funext r
  rcases r with e | ⟨a, q⟩ <;> rfl

theorem calls_append (a b : List Call) :
    Writing.calls (a ++ b) = (Writing.calls a).bind fun
      | .ok _ => Writing.calls b
      | .error e => .done (.error e) := by
  induction a with
  | nil => rfl
  | cons c r ih =>
    show Writing.perform c _ = Writing.perform c _
    congr 1
    funext answer
    cases answer with
    | ok _ => exact ih
    | error e => rfl

theorem emit_append (a b : List Call) : emit (a ++ b) = (do emit a; emit b) := by
  funext p
  rw [bind_apply]
  simp only [emit, ofWriting, calls_append, Writing.bind_assoc]
  congr 1
  funext r
  cases r with
  | ok _ => rfl
  | error e => rfl

end Rendering

namespace Layout

open Rendering

theorem tableRow_eq (d : Dialect) (t : Table Part) (row : Nat) (cells : Row Part) : tableRow d t row cells =
    inOrder ((cells.place t.columns.toNat).map
      (placedCell d t { Style.plain with bold := row < t.headers.length } row)) := rfl

/-- A table for which there is enough memory. -/
theorem table_eq (d : Dialect) (t : Table Part) : table d t = (do
    let depth ← ofQuiet Writing.depth
    emit (tableStart d t)
    inRows (tableRow d t) t.allRows
    ofWriting (Writing.closeTo depth)) := by
  simp only [tableStart, emit_append, bind_assoc]
  rfl

end Layout

namespace Render

theorem visit_apply (m : Rendering Unit) (p : Progress) :
    Rendering.visit m p = if p.traversal.stops then .done (.error Halt.cancelled.error)
      else m { p with traversal := p.traversal.tick } := by
  have h : Rendering.visit m p = (do
      if p.traversal.stops then throw .cancelled
      modify fun p => { p with traversal := p.traversal.tick }
      m : Rendering Unit) p := rfl
  rw [h]
  split <;> rfl

theorem unwind_apply (depth : Nat) (m : Rendering Unit) (p : Progress) :
    (do Render.unwind depth; m : Rendering Unit) p =
      (Writing.closeTo depth).bind fun _ => m p := by
  rw [Rendering.bind_apply, Render.unwind, Rendering.ofQuiet, Writing.bind_assoc, Writing.bind_assoc]
  rfl

/-- The rendering of a node by a handler, which may leave elements open. -/
theorem offered_apply (handler : HandlerContext → Writing Handled) (s : Scope)
    (alignment : Alignment) (fallback : List String → Rendering Unit) (p : Progress) :
    Render.offered handler s alignment fallback p =
      .askDepth fun depth => (handler ⟨alignment, s.dialect⟩).bind fun handled =>
        let q : Progress := { p with traversal := p.traversal.cancelIf handled.cancels }
        match handled.result with
        | .ok .rendered => (Writing.closeTo depth).bind fun answer => Rendering.ofWriting (.done answer) q
        | .ok .declined => (Writing.closeTo depth).bind fun _ => fallback [] q
        | .error (.write e) => .done (.error (.write e))
        | .error e => (Writing.closeTo depth).bind fun _ => fallback e.messages q := by
  rw [Render.offered, Rendering.bind_apply]
  show Writing.askDepth _ = _
  congr 1
  funext depth
  show (Render.offer handler s alignment >>= _ : Rendering Unit) p = _
  rw [Rendering.bind_apply, Render.offer, Rendering.bind_apply, Rendering.ofQuiet,
    Writing.bind_assoc, Writing.bind_assoc]
  congr 1
  funext handled
  rcases handled with ⟨result, cancels⟩
  rcases result with e | outcome
  · cases e with
    | write e => rfl
    | failed message => exact unwind_apply depth _ _
    | aggregate messages => exact unwind_apply depth _ _
  · cases outcome with
    | rendered => rfl
    | declined => exact unwind_apply depth _ _

end Render

/-! ### Runs that end well -/

namespace Rendering

open Markup Gauged

variable {σ α β : Type} [Writer σ] {p : Progress} {w : σ}

theorem run_bind_ok {m : Rendering α} {a : α} {q : Progress} (h : (Writing.run (m p) w).1 = .ok (a, q))
    (f : α → Rendering β) :
    Writing.run ((m >>= f) p) w = Writing.run (f a q) (Writing.run (m p) w).2 ∧
      Writing.made ((m >>= f) p) w =
        Writing.made (m p) w ++ Writing.made (f a q) (Writing.run (m p) w).2 := by
  rw [bind_apply, Writing.run_bind, Writing.made_bind, h]
  exact ⟨rfl, rfl⟩

theorem run_bind_error {m : Rendering α} {e : RenderError} (h : (Writing.run (m p) w).1 = .error e)
    (f : α → Rendering β) :
    Writing.run ((m >>= f) p) w = (.error e, (Writing.run (m p) w).2) ∧
      Writing.made ((m >>= f) p) w = Writing.made (m p) w := by
  rw [bind_apply, Writing.run_bind, Writing.made_bind, h]
  exact ⟨rfl, List.append_nil _⟩

theorem ok_of_run_bind {m : Rendering α} {f : α → Rendering β} {r : β × Progress}
    (h : (Writing.run ((m >>= f) p) w).1 = .ok r) :
    ∃ a q, (Writing.run (m p) w).1 = .ok (a, q) ∧
      (Writing.run (f a q) (Writing.run (m p) w).2).1 = .ok r := by
  cases hm : (Writing.run (m p) w).1 with
  | ok a => exact ⟨a.1, a.2, rfl, (congrArg Prod.fst (run_bind_ok hm f).1).symm.trans h⟩
  | error e =>
    rw [bind_apply, Writing.run_bind, hm] at h
    cases h

/-- A visit that ends well was not stopped. -/
theorem visit_of_ok {m : Rendering Unit} {r : Unit × Progress}
    (h : (Writing.run (visit m p) w).1 = .ok r) : visit m p = m { p with traversal := p.traversal.tick } := by
  rw [Render.visit_apply] at h ⊢
  split at h
  · cases h
  · rename_i hs
    exact if_neg hs

theorem ofPass_eq_done (m : Html.Pass α) (p : Progress) : ∃ r, ofPass m p = .done r := by
  cases h : m p.traversal with
  | ok r => exact ⟨.ok (r.1, { p with traversal := r.2 }), by rw [ofPass, h]⟩
  | error halt => exact ⟨.error halt.error, by rw [ofPass, h]⟩

theorem run_ofWriting {c : Writing (Except WriteError α)} {a : α} (h : (c.run w).1 = .ok a) (p : Progress) :
    Writing.run (ofWriting c p) w = (.ok (a, p), (c.run w).2) ∧
      Writing.made (ofWriting c p) w = c.made w := by
  rw [ofWriting, Writing.run_bind, Writing.made_bind, h]
  exact ⟨rfl, List.append_nil _⟩

variable [Gauged σ]

/-- Content between calls that open elements and a writing that closes them. -/
theorem run_enclosed (hw : Works w) {n : Nat} {start : List Call} (hs : Opening n start)
    {finish : Writing (Except WriteError Unit)} (hf : Closes σ (Writer.depth w) n finish)
    {content : Rendering Unit} {q : Progress} {k : List Content}
    (hc : (Writing.run (content p) ((Writing.calls start).run w).2).1 = .ok ((), q))
    (hk : Writing.made (content p) ((Writing.calls start).run w).2 = Content.allCalls k) :
    let m : Rendering Unit := do
      emit start
      content
      ofWriting finish
    (Writing.run (m p) w).1 = .ok ((), q) ∧
      Writing.made (m p) w = start ++ (Content.allCalls k ++ List.replicate n .close) := by
  have ho := hs.accepted hw
  obtain ⟨hr, hm⟩ := run_ofWriting ho.answer p
  have hw' : Works ((Writing.calls start).run w).2 := works_run _ hw
  have hfa := hf.accepted (works_run (content p) hw') ((depth_of_made hw' hk).trans ho.depth)
  have hrf := run_ofWriting hfa.answer q
  have hrest := run_bind_ok hc fun _ => ofWriting finish
  have hall := run_bind_ok (congrArg Prod.fst hr) fun _ => do
    content
    ofWriting finish
  rw [congrArg Prod.snd hr] at hall
  refine ⟨congrArg Prod.fst (hall.1.trans (hrest.1.trans hrf.1)), ?_⟩
  rw [← hk, ← hfa.made, ← hrf.2, ← hrest.2]
  exact hall.2.trans (congrArg (· ++ _) (hm.trans ho.made))

theorem run_enclosed_error (hw : Works w) {n : Nat} {start : List Call} (hs : Opening n start)
    {finish : Writing (Except WriteError Unit)} {content : Rendering Unit} {e : RenderError}
    (hc : (Writing.run (content p) ((Writing.calls start).run w).2).1 = .error e) :
    let m : Rendering Unit := do
      emit start
      content
      ofWriting finish
    (Writing.run (m p) w).1 = .error e ∧
      Writing.made (m p) w = start ++ Writing.made (content p) ((Writing.calls start).run w).2 := by
  have ho := hs.accepted hw
  obtain ⟨hr, hm⟩ := run_ofWriting ho.answer p
  have hrest := run_bind_error hc fun _ => ofWriting finish
  have hall := run_bind_ok (congrArg Prod.fst hr) fun _ => do
    content
    ofWriting finish
  rw [congrArg Prod.snd hr] at hall
  refine ⟨congrArg Prod.fst (hall.1.trans hrest.1), ?_⟩
  rw [← hrest.2]
  exact hall.2.trans (congrArg (· ++ _) (hm.trans ho.made))

end Rendering

/-! ### The handler for images -/

section

open Markup Gauged

variable {σ : Type} [Writer σ] [Gauged σ] {item : MediaItem} (s : Scope) (alignment : Alignment)
  (fallback : List String → Rendering Unit) (p : Progress)

theorem cancelIf_false (p : Progress) : { p with traversal := p.traversal.cancelIf false } = p := by
  rw [Traversal.cancelIf, Bool.or_false]

omit [Gauged σ] in
/-- Without an address, the handler for images leaves an item to the next one. -/
theorem Render.offered_imageHandler_empty (hu : item.url = "") (w : σ) :
    Writing.run (offered (imageHandler item) s alignment fallback p) w = Writing.run (fallback [] p) w ∧
      Writing.made (offered (imageHandler item) s alignment fallback p) w = Writing.made (fallback [] p) w := by
  have hi : imageHandler item ⟨alignment, s.dialect⟩ = .done ⟨.ok .declined, false⟩ := if_pos hu
  rw [offered_apply, hi, Writing.run, Writing.made_askDepth]
  show Writing.run ((Writing.closeTo (Writer.depth w)).bind _) w = _ ∧ Writing.made ((Writing.closeTo _).bind _) w = _
  rw [Writing.run_bind, Writing.made_bind, Writing.run_closeTo_of_le (Nat.le_refl _),
    Writing.made_closeTo_of_le (Nat.le_refl _), cancelIf_false]
  exact ⟨rfl, rfl⟩

theorem Render.offered_imageHandler (hu : item.url ≠ "") {w : σ} (hw : Works w) :
    (Writing.run (offered (imageHandler item) s alignment fallback p) w).1 = .ok ((), p) ∧
      Writing.made (offered (imageHandler item) s alignment fallback p) w = item.image.calls := by
  have ha := item.image.calls_whole.accepted hw
  rw [offered_apply, imageHandler, if_neg hu, Writing.run, Writing.made_askDepth, Writing.bind_assoc,
    Writing.run_bind, Writing.made_bind, ha.answer, ha.made]
  have hd := Nat.le_of_eq ha.depth
  show (Writing.run ((Writing.closeTo (Writer.depth w)).bind _) _).1 = _ ∧
    _ ++ Writing.made ((Writing.closeTo (Writer.depth w)).bind _) _ = _
  rw [Writing.run_bind, Writing.made_bind, Writing.run_closeTo_of_le hd, Writing.made_closeTo_of_le hd, cancelIf_false]
  exact ⟨rfl, List.append_nil _⟩

end

/-! ### Nodes left by handlers -/

/-- The messages with which a handler left a node to its fallback, if it did. -/
def Handled.left? (h : Handled) : Option (List String) :=
  match h.result with
  | .ok .rendered | .error (.write _) => none
  | .ok .declined => some []
  | .error e => some e.messages

/-- What becomes of a node that a handler did not leave to its fallback. -/
def Render.taken (depth : Nat) (h : Handled) (p : Progress) : Writing (Except RenderError (Unit × Progress)) :=
  match h.result with
  | .error (.write e) => .done (.error (.write e))
  | _ => (Writing.closeTo depth).bind fun answer => Rendering.ofWriting (.done answer) p

/-- A node offered to a handler on a writer. -/
theorem Render.run_offered {σ : Type} [Markup.Writer σ] (handler : HandlerContext → Writing Handled) (s : Scope)
    (alignment : Alignment) (fallback : List String → Rendering Unit) (p : Progress) (w : σ) :
    Writing.run (Render.offered handler s alignment fallback p) w =
      let r := (handler ⟨alignment, s.dialect⟩).run w
      let q : Progress := { p with traversal := p.traversal.cancelIf r.1.cancels }
      match r.1.left? with
      | some messages => Writing.run (fallback messages q) ((Writing.closeTo (Markup.Writer.depth w)).run r.2).2
      | none => (taken (Markup.Writer.depth w) r.1 q).run r.2 := by
  rw [offered_apply, Writing.run, Writing.run_bind]
  rcases (handler ⟨alignment, s.dialect⟩).run w with ⟨⟨result, cancels⟩, w'⟩
  rcases result with e | outcome
  · cases e with
    | write e => rfl
    | failed message => exact Writing.run_bind _ _ w'
    | aggregate messages => exact Writing.run_bind _ _ w'
  · cases outcome with
    | rendered => rfl
    | declined => exact Writing.run_bind _ _ w'

/-! ### Whole renderings -/

section

variable {σ : Type} [Markup.Writer σ]

theorem run_unwound_error (depth : Nat) (e : RenderError) (w : σ) :
    (unwound depth (.error e)).run w = (.error e, ((Writing.closeTo depth).run w).2) :=
  Writing.run_bind _ _ w

theorem steps_unwound_error (depth : Nat) (e : RenderError) (w : σ) :
    (unwound depth (.error e)).steps w = (Writing.closeTo depth).steps w :=
  (Writing.steps_bind _ _ w).trans (List.append_nil _)

variable (setting : Setting) (limit : Nat) (d : Document) (inclusion : Bool) (t : Traversal) (w : σ)

/-- The document first, then what is left open is closed. -/
theorem run_renderFrom : (renderFrom setting limit d inclusion t).run w =
    (unwound (Markup.Writer.depth w)
      (Writing.run (Render.document setting limit d inclusion ⟨t, ∅⟩) w).1).run
        (Writing.run (Render.document setting limit d inclusion ⟨t, ∅⟩) w).2 :=
  Writing.run_bind (Render.document setting limit d inclusion ⟨t, ∅⟩) _ w

theorem steps_renderFrom : (renderFrom setting limit d inclusion t).steps w =
    Writing.steps (Render.document setting limit d inclusion ⟨t, ∅⟩) w ++
      (unwound (Markup.Writer.depth w)
        (Writing.run (Render.document setting limit d inclusion ⟨t, ∅⟩) w).1).steps
          (Writing.run (Render.document setting limit d inclusion ⟨t, ∅⟩) w).2 :=
  Writing.steps_bind (Render.document setting limit d inclusion ⟨t, ∅⟩) _ w

end

open Rendering Layout

theorem grid_eq_element (spacing : String) (columns : List String) (rows : Nat)
    (cells : Rendering Unit) :
    grid spacing columns rows cells =
      element (gridTag spacing) (do emit (gridDefinitions columns rows); cells) := by
  rw [grid, gridStart_eq, emit_append, element]
  simp only [bind_assoc]

namespace Layout

/-- The element that a cell of a table is. -/
def cellTag (d : Dialect) (row : Nat) (p : Placement Part) : Tag :=
  ⟨"Frame", d.tableCellFrame row ++ cellPlace p.column row
    ++ if p.span > 1 then [("Grid.ColumnSpan", toString p.span)] else []⟩

def cellContent (d : Dialect) (t : Table Part) (st : Style) (p : Placement Part) : Rendering Unit :=
  let alignment := (p.cell?.bind Cell.alignment).getD (t.columnAlignment p.column)
  element ⟨"ContentView", d.tableCellContent ++ alignmentOptions alignment⟩ <|
    match p.cell? with
    | some cell => contained d cell.content { st with alignment }
    | none => pure ()

theorem placedCell_eq (d : Dialect) (t : Table Part) (st : Style) (row : Nat) (p : Placement Part) :
    placedCell d t st row p = element (cellTag d row p) (cellContent d t st p) := rfl

theorem cellTag_distinct (d : Dialect) (row : Nat) (p : Placement Part) :
    Markup.DistinctNames (cellTag d row p).attributes := by
  refine tableCell_distinct d _ _ _ ?_
  split
  · exact List.Sublist.refl _
  · exact List.nil_sublist _

end Layout

theorem inOrder_append (a b : List (Rendering Unit)) :
    inOrder (a ++ b) = (do inOrder a; inOrder b) := by
  induction a with
  | nil => rfl
  | cons m r ih =>
    show (do m; inOrder (r ++ b)) = (do (do m; inOrder r); inOrder b)
    rw [ih, bind_assoc]

theorem inRows_append {α : Type} (f : Nat → α → Rendering Unit) (a b : List α) :
    inRows f (a ++ b) = (do inRows f a; inRows (fun row => f (row + a.length)) b) := by
  rw [inRows, List.mapIdx_append, inOrder_append]
  rfl

theorem length_ordinals (last : Nat) (numbers : List (Option UInt32)) :
    (ordinals last numbers).length = numbers.length := by
  induction numbers generalizing last with
  | nil => rfl
  | cons n r ih => exact congrArg (· + 1) (ih _)

/-- The items of a numbered list with their numbers, which they have by their places. -/
abbrev numbered {ι : Type} (e : ι → NumberedItem Part) (items : List ι) : List (Nat × ι) :=
  (ordinals 0 ((items.map e).map NumberedItem.number)).zip items

section

variable {ι : Type} (e : ι → NumberedItem Part) (items : List ι)

theorem map_snd_numbered : (numbered e items).map Prod.snd = items := by
  refine List.map_snd_zip ?_
  simp [length_ordinals]

theorem numbers_map : numbers (items.map e) =
    (numbered e items).map fun n => ⟨toString n.1 ++ ".", (e n.2).child⟩ := by
  simp only [numbers, List.map_zip_eq_zipWith, List.zipWith_map_right]
  rfl

end

/-! ### Compositional properties -/

/-- A property of renderings in a dialect and keys that the pieces have, and that is kept by putting them
together, except that nothing is said about grids. The keys of a run come with it when it is left to wait. -/
structure Composable (d : Dialect) {κ : Type} (ofRun : Run → List κ)
    (P : (α : Type) → Rendering α → List κ → Prop) : Prop where
  done {α : Type} (a : α) : P α (pure a) []
  andThen {α β : Type} {m : Rendering α} {f : α → Rendering β} {k l : List κ} :
    P α m k → (∀ a, P β (f a) l) → P β (m >>= f) (k ++ l)
  append (r : Run) (a : Alignment) : P Unit (appendRun r a) (ofRun r)
  comment (t : String) : P Unit (comment t) []
  flush : P Unit (flush d.profile) []
  whole {cs : List Call} : Whole cs → Plain cs → P Unit (emit cs) []
  element {t : Tag} {content : Rendering Unit} {k : List κ} :
    DistinctNames t.attributes → t.name ∉ ["Span", "Grid"] → P Unit content k → P Unit (element t content) k

namespace Composable

variable {d : Dialect} {κ : Type} {ofRun : Run → List κ} {P : (α : Type) → Rendering α → List κ → Prop}
  (h : Composable d ofRun P)
include h

theorem before {m n : Rendering Unit} {k : List κ} (hm : P Unit m []) (hn : P Unit n k) :
    P Unit (do m; n) k := h.andThen hm fun _ => hn

theorem text (t : String) (s : Style) :
    P Unit (text t s) (if t = "" then [] else ofRun (.ofStyle t s)) := by
  rw [Rendering.text]
  split
  · exact h.done ()
  · exact h.append _ _

/-! ### Containers -/

section

variable {content : Rendering Unit} {k : List κ} (hc : P Unit content k)
include hc

theorem padded (spacing : Spacing) (a : Alignment) :
    P Unit (padded d spacing a content) k := h.element (padded_distinct _ a) (by simp) hc

theorem flushed : P Unit (flushed d content) k := by
  have hf : P Unit (Layout.flushed d content) (k ++ []) := h.andThen hc fun _ => h.flush
  rwa [List.append_nil] at hf

theorem stacked : P Unit (stacked d content) k :=
  h.element (stack_distinct d) (stack_name d) (h.flushed hc)

theorem panel (kind : PanelKind) (st : Style) : P Unit (panel d kind st content) k :=
  h.padded (h.element (by simp [DistinctNames]) (by simp) (h.stacked hc)) _ _

end

/-! ### Labels -/

theorem leaf {t : Tag} (ht : DistinctNames t.attributes) (hn : t.name ∉ ["Span", "Grid"]) :
    P Unit (leaf t) [] := h.whole (Whole.leaf ht) (avoids_leaf hn)

theorem image (i : Image) : P Unit (emit i.calls) [] := h.whole i.calls_whole i.calls_plain

theorem textBlock (a : Alignment) (t : String) : P Unit (textBlock d a t) [] :=
  h.padded (h.leaf (by simp [DistinctNames]) (by simp)) _ a

theorem errorBlock (a : Alignment) (message : String) :
    P Unit (errorBlock d a message) [] := h.padded (h.leaf (by simp [DistinctNames]) (by simp)) _ a

theorem htmlBlock (a : Alignment) {extra : List Attribute}
    (he : (extra.map Prod.fst).Sublist ["Style", "FontSize", "TextColor"]) (html : String) :
    P Unit (htmlBlock d a extra html) [] := by
  have hr : P Unit (emit [.raw html]) [] := h.whole (Whole.raw html) (by simp [Avoids])
  exact h.padded (h.element (htmlLabel_distinct a he) (by simp) hr) _ a

theorem rule : P Unit (rule d) [] := h.leaf (by simp [DistinctNames]) (by simp)

/-! ### Items one after the other -/

section

variable {ι : Type} {items : List ι} {g : ι → List κ}

theorem inOrder {f : ι → Rendering Unit} (hf : ∀ i ∈ items, P Unit (f i) (g i)) :
    P Unit (inOrder (items.map f)) (items.flatMap g) := by
  induction items with
  | nil => exact h.done ()
  | cons i r ih =>
    rw [List.flatMap_cons]
    exact h.andThen (hf i (List.mem_cons_self ..)) fun _ => ih fun j hj => hf j (List.mem_cons_of_mem i hj)

theorem inRows {α : Type} {f : Nat → α → Rendering Unit} {e : ι → α}
    (hf : ∀ row < items.length, ∀ i ∈ items, P Unit (f row (e i)) (g i)) :
    P Unit (inRows f (items.map e)) (items.flatMap g) := by
  induction items generalizing f with
  | nil => exact h.done ()
  | cons i r ih =>
    rw [Layout.inRows, List.map_cons, List.mapIdx_cons, List.flatMap_cons]
    refine h.andThen (hf 0 (Nat.zero_lt_succ _) i (List.mem_cons_self ..)) fun _ => ?_
    exact ih fun row hr j hj => hf (row + 1) (Nat.succ_lt_succ hr) j (List.mem_cons_of_mem i hj)

theorem inOrder_nil {f : ι → Rendering Unit} (hf : ∀ i ∈ items, P Unit (f i) []) :
    P Unit (Layout.inOrder (items.map f)) [] := by
  have hi : P Unit (Layout.inOrder (items.map f)) (items.flatMap fun _ => []) := h.inOrder hf
  rwa [List.flatMap_eq_nil_iff.2 fun _ _ => rfl] at hi

theorem codeRows (st : Style) (rows : List String) :
    P Unit (codeRows d st rows) [] := by
  have hr : P Unit (Layout.inOrder (rows.map (codeRow d st))) [] :=
    h.inOrder_nil fun _ _ => h.leaf (by simp [DistinctNames]) (by simp)
  exact h.padded (h.element (stack_distinct d) (stack_name d) hr) _ _

/-! ### Parts of blocks -/

theorem contained {part : Part} {st : Style} {k : List κ}
    (hp : P Unit (part.render st) k) : P Unit (contained d part st) k := by
  rw [Layout.contained]
  split
  · exact h.flushed hp
  · exact h.stacked hp

end

section

variable {ν : Type} {part : ν → Part}

/-- The terms of definitions are bold. -/
theorem definitionList (st : Style) {g gBold : ν → List κ} {groups : List (DefinitionGroup ν)}
    (hg : ∀ e ∈ groups, (∀ n ∈ e.terms, P Unit ((part n).render { st with bold := true }) (gBold n)) ∧
      ∀ n ∈ e.descriptions, P Unit ((part n).render st) (g n)) :
    P Unit (definitionList d st (groups.map (DefinitionGroup.map part)))
      (groups.flatMap fun e => e.terms.flatMap gBold ++ e.descriptions.flatMap g) := by
  rw [Layout.definitionList, List.map_map]
  refine h.inOrder fun e hm => ?_
  obtain ⟨ht, hd⟩ := hg e hm
  refine h.andThen (h.inRows fun index _ n hn => ?_) fun _ => h.inRows fun index _ n hn => ?_
  · exact h.padded (h.flushed (ht n hn)) _ _
  · exact h.padded (h.contained (hd n hn)) _ _

theorem cellContent (t : Table Part) (st : Style) {g : ν → List κ} {p : Placement ν}
    (hp : ∀ n ∈ p.contents, ∀ a, P Unit ((part n).render { st with alignment := a }) (g n)) :
    P Unit (cellContent d t st (p.map part)) (p.contents.flatMap g) := by
  obtain ⟨column, span, cell?⟩ := p
  refine h.element (tableCellContent_distinct d _) (by simp) ?_
  cases cell? with
  | none => exact h.done ()
  | some cell =>
    have hc := hp cell.content (List.mem_singleton_self _)
    have hg : (Placement.mk column span (some cell)).contents.flatMap g = g cell.content :=
      List.append_nil _
    rw [hg]
    exact h.contained (hc _)

theorem placedCell (t : Table Part) (st : Style) (row : Nat) {g : ν → List κ} {p : Placement ν}
    (hp : ∀ n ∈ p.contents, ∀ a, P Unit ((part n).render { st with alignment := a }) (g n)) :
    P Unit (placedCell d t st row (p.map part)) (p.contents.flatMap g) :=
  h.element (cellTag_distinct d row _) (by simp) (h.cellContent t st hp)

theorem tableRow (t : Table Part) (row : Nat) {g : ν → List κ} {cells : Row ν}
    (hc : ∀ n ∈ cells.placed t.columns.toNat, ∀ a,
      P Unit ((part n).render { Style.plain with bold := row < t.headers.length, alignment := a }) (g n)) :
    P Unit (tableRow d t row (cells.map part)) ((cells.placed t.columns.toNat).flatMap g) := by
  rw [tableRow_eq, Row.place_map, List.map_map, Row.placed, List.flatMap_assoc]
  refine h.inOrder fun p hp => h.placedCell t _ row fun n hn => hc n ?_
  exact List.mem_flatMap.2 ⟨p, hp, hn⟩

end

end Composable

/-! ### Grids -/

/-- The keys of the rows of a table. -/
abbrev Table.rowKeys (g : ν → List κ) (columns : Nat) (rows : List (Row ν)) : List κ :=
  rows.flatMap fun cells => (cells.placed columns).flatMap g

/-- A property that lists, tables and footnotes have as well, if their parts have it. -/
structure Compositional (d : Dialect) {κ : Type} (ofRun : Run → List κ)
    (P : (α : Type) → Rendering α → List κ → Prop) : Prop extends Composable d ofRun P where
  list {ι : Type} {items : List ι} {g : ι → List κ} (st : Style) {e : ι → Marked} :
    (∀ i ∈ items, P Unit ((e i).part.render st) (g i)) →
      P Unit (list d st (items.map e)) (items.flatMap g)
  /-- The header rows of a table are bold. Nothing else of the style around a table reaches into it. -/
  table {ν : Type} {part : ν → Part} {g : Bool → ν → List κ} {t : Table ν} :
    (∀ n ∈ t.placed, ∀ header a,
      P Unit ((part n).render { Style.plain with bold := header, alignment := a }) (g header n)) →
      P Unit (table d (t.map part))
        (Table.rowKeys (g true) t.columns.toNat t.headers ++ Table.rowKeys (g false) t.columns.toNat t.rows)
  footnotes {ι : Type} {items : List ι} {f : ι → Rendering Unit} {g : ι → List κ} :
    (∀ i ∈ items, P Unit (f i) (g i)) → P Unit (footnotes d (items.map f)) (items.flatMap g)

theorem Compositional.numberedList {d : Dialect} {κ : Type} {ofRun : Run → List κ}
    {P : (α : Type) → Rendering α → List κ → Prop} (h : Compositional d ofRun P) {ι : Type} {items : List ι}
    {g : ι → List κ} (st : Style) {e : ι → NumberedItem Part}
    (hi : ∀ i ∈ items, P Unit ((e i).child.render st) (g i)) :
    P Unit (Layout.list d st (numbers (items.map e))) (items.flatMap g) := by
  rw [numbers_map]
  have hs := map_snd_numbered e items
  rw [← congrArg (List.flatMap g) hs, List.flatMap_map]
  refine h.list st fun n hm => hi n.2 ?_
  rw [← hs]
  exact List.mem_map_of_mem hm

/-! ### Brackets -/

/-- A property that is kept by brackets of all kinds, grids among them. -/
structure Bracketed (d : Dialect) {κ : Type} (ofRun : Run → List κ)
    (P : (α : Type) → Rendering α → List κ → Prop) : Prop where
  done {α : Type} (a : α) : P α (pure a) []
  andThen {α β : Type} {m : Rendering α} {f : α → Rendering β} {k l : List κ} :
    P α m k → (∀ a, P β (f a) l) → P β (m >>= f) (k ++ l)
  append (r : Run) (a : Alignment) : P Unit (appendRun r a) (ofRun r)
  comment (t : String) : P Unit (comment t) []
  flush : P Unit (flush d.profile) []
  whole {cs : List Call} : Whole cs → Spanless cs → P Unit (emit cs) []
  element {t : Tag} {content : Rendering Unit} {k : List κ} :
    DistinctNames t.attributes → t.name ∉ ["Span"] → P Unit content k → P Unit (element t content) k
  enclosed {n : Nat} {start : List Call} {content : Rendering Unit} {k : List κ} :
    Opening n start → Spanless start → P Unit content k → P Unit (do
      let depth ← ofQuiet Writing.depth
      emit start
      content
      ofWriting (Writing.closeTo depth)) k

namespace Bracketed

variable {d : Dialect} {κ : Type} {ofRun : Run → List κ} {P : (α : Type) → Rendering α → List κ → Prop}
  (h : Bracketed d ofRun P)
include h

theorem composable : Composable d ofRun P where
  done := h.done
  andThen := h.andThen
  append := h.append
  comment := h.comment
  flush := h.flush
  whole hc hp := h.whole hc hp.spanless
  element ht hn := h.element ht (ne_span_of_notMem hn)

theorem grid (spacing : String) (columns : List String) (rows : Nat) {content : Rendering Unit} {k : List κ}
    (hc : P Unit content k) : P Unit (grid spacing columns rows content) k := by
  rw [grid_eq_element]
  refine h.element (gridTag_distinct spacing) (by simp [gridTag]) (h.composable.before ?_ hc)
  exact h.whole (gridDefinitions_whole columns rows) (gridDefinitions_plain columns rows).spanless

theorem list {ι : Type} {items : List ι} {g : ι → List κ} (st : Style) {e : ι → Marked}
    (hi : ∀ i ∈ items, P Unit ((e i).part.render st) (g i)) :
    P Unit (list d st (items.map e)) (items.flatMap g) := by
  have hc := h.composable
  refine hc.padded (h.grid _ _ _ (hc.inRows fun row _ i hm => ?_)) _ _
  refine hc.before (hc.element ?_ (by simp) (hc.leaf ?_ (by simp))) ?_
  · simp [DistinctNames, cellPlace_names]
  · split <;> simp [DistinctNames]
  · exact hc.element (stackCell_distinct d 1 row) (stack_name d) (hc.flushed (hi i hm))

theorem table {ν : Type} {part : ν → Part} {g : Bool → ν → List κ} {t : Table ν}
    (ht : ∀ n ∈ t.placed, ∀ header a,
      P Unit ((part n).render { Style.plain with bold := header, alignment := a }) (g header n)) :
    P Unit (table d (t.map part))
      (Table.rowKeys (g true) t.columns.toNat t.headers ++ Table.rowKeys (g false) t.columns.toNat t.rows) := by
  have hc := h.composable
  obtain ⟨n, hn⟩ := tableStart_opening d (t.map part)
  rw [table_eq]
  refine h.enclosed hn (tableStart_spanless d _) ?_
  have placed {cells : Row ν} (hc : cells ∈ t.allRows) {m : ν} (hm : m ∈ cells.placed t.columns.toNat) :
      m ∈ t.placed := List.mem_flatMap.2 ⟨cells, hc, hm⟩
  rw [Table.allRows_map, Table.allRows, List.map_append, inRows_append]
  refine h.andThen (hc.inRows fun row hr cells hr' => hc.tableRow _ row fun m hm a => ?_) fun _ =>
    hc.inRows fun row _ cells hr' => hc.tableRow _ _ fun m hm a => ?_
  · have hh : row < (t.map part).headers.length := by rwa [Table.map, List.length_map]
    simp only [hh, decide_true]
    exact ht m (placed (List.mem_append_left _ hr') hm) true a
  · have hh : ¬ row + (t.headers.map (Row.map part)).length < (t.map part).headers.length := by
      simp [Table.map]
    simp only [hh, decide_false]
    exact ht m (placed (List.mem_append_right _ hr') hm) false a

theorem footnotes {ι : Type} {items : List ι} {f : ι → Rendering Unit}
    {g : ι → List κ} (hf : ∀ i ∈ items, P Unit (f i) (g i)) :
    P Unit (footnotes d (items.map f)) (items.flatMap g) := by
  have hc := h.composable
  refine hc.before hc.rule (h.grid _ _ _ (hc.inRows fun row _ i hi => ?_))
  refine hc.before (hc.element ?_ (by simp) (hc.leaf (by simp [DistinctNames]) (by simp))) ?_
  · simp [DistinctNames, cellPlace_names]
  · refine hc.element ?_ (by simp) (hc.stacked (hf i hi))
    simp [DistinctNames, cellPlace_names]

theorem compositional : Compositional d ofRun P :=
  { h.composable with list := h.list, table := h.table, footnotes := h.footnotes }

end Bracketed

/-- A compositional property that gives runs no keys. -/
theorem Compositional.silentText {d : Dialect} {κ : Type} {P : (α : Type) → Rendering α → List κ → Prop}
    (h : Compositional d (fun _ => []) P) (t : String) (s : Style) : P Unit (Rendering.text t s) [] := by
  have ht := h.text t s
  rwa [ite_self] at ht

end XamlDoc
