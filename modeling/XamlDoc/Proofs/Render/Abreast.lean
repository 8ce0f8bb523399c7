import XamlDoc.Proofs.Html.Traversal
import XamlDoc.Proofs.Render.Closed
import XamlDoc.Proofs.Render.Vocabulary

/-!
# Renderings abreast

Renderings of one document, in dialects and scopes of their own, that go through layouts, nodes and documents
abreast, and the relations between them that this keeps. Between two pieces of a rendering runs may wait or not, and
a relation may say different things about the two phases: only when no runs wait is anything written.
-/

namespace XamlDoc

open Markup (Attribute Call DistinctNames Tag Whole WriteError Writing)
open Rendering Layout Render

inductive Phase where
  | settled
  /-- Runs may wait. -/
  | flowing

variable {ι : Type}

/-- A relation of renderings abreast, from one phase to another, in dialects with one profile. It holds where all of
them do the same and where they write common tags of their dialects, and is kept by sequences. -/
structure Abreast (profile : Profile) (d : ι → Dialect)
    (R : Phase → Phase → (α : Type) → (ι → Rendering α) → Prop) : Prop where
  agree (x : ι) : (d x).profile = profile
  pass (i : Phase) {α : Type} {m : Html.Pass α} : Html.Step α m → R i i α fun _ => ofPass m
  andThen {i j k : Phase} {α β : Type} {m : ι → Rendering α} {f : ι → α → Rendering β} :
    R i j α m → (∀ a, R j k β fun x => f x a) → R i k β fun x => m x >>= f x
  enter {j : Phase} {α : Type} {m : ι → Rendering α} : R .flowing j α m → R .settled j α m
  leave {i : Phase} {α : Type} {m : ι → Rendering α} : R i .settled α m → R i .flowing α m
  append (r : Run) (a : Alignment) : R .flowing .flowing Unit fun _ => appendRun r a
  comment (t : String) : R .flowing .flowing Unit fun _ => comment t
  flush : R .flowing .settled Unit fun _ => flush profile
  whole {cs : List Call} : Whole cs → R .settled .settled Unit fun _ => emit cs
  element {f : Dialect → Tag} {m : ι → Rendering Unit} :
    Common f → R .settled .settled Unit m → R .settled .settled Unit fun x => element (f (d x)) (m x)
  framed (t : Table Part) {m : ι → Rendering Unit} : R .settled .settled Unit m →
    R .settled .settled Unit fun x => do
      let depth ← ofQuiet Writing.depth
      emit (tableStart (d x) t)
      m x
      ofWriting (Writing.closeTo depth)

/-- Parts with common margins, whose renderings are abreast. -/
structure Part.Abreast (R : Phase → Phase → (α : Type) → (ι → Rendering α) → Prop) (margins : Margins)
    (isInline : Bool) (p : ι → Part) : Prop where
  margins (x : ι) : (p x).margins = margins
  isInline (x : ι) : (p x).isInline = isInline
  render (st : Style) : R .flowing .flowing Unit fun x => (p x).render st

/-! ### Steps as passes -/

namespace Render

/-- A visit looks at the token and goes on. -/
theorem visit_eq (m : Rendering Unit) :
    Rendering.visit m = ofPass (Html.visit (pure ())) >>= fun _ => m := by
  funext p
  rw [visit_apply, bind_apply, ofPass, Html.visit_apply]
  split <;> rfl

theorem setNumbering_eq (numbering : Numbering) : (modify fun p : Progress =>
      { p with traversal := { p.traversal with numbering } } : Rendering Unit) =
    ofPass (modify fun t => { t with numbering }) := rfl

theorem footnoteSection_eq [Memory] (s : Scope) :
    footnoteSection s = ofPass (fun t => .ok (t.numbering, t)) >>= footnoteRows s := rfl

theorem footnoteReference_eq (s : Scope) (st : Style) (key : String) (autoExpand : Bool) :
    footnoteReference s st key autoExpand =
      if (s.document.footnotes.get? key).isSome then
        match if autoExpand then s.inPlace key else none with
        | some content => content st
        | none => do
          let number ← ofPass (modifyGet fun t => t.reference key)
          text (toString number) { st with superscript := true }
      else pure () := by
  rw [footnoteReference]
  cases s.document.footnotes.get? key <;> rfl

theorem ownNumbers_eq (m : Rendering Unit) : ownNumbers m = (do
    let outer ← ofPass fun t => .ok (t.numbering, t)
    ofPass (modify fun t => { t with numbering := ∅ })
    m
    ofPass (modify fun t => { t with numbering := outer })) := rfl

theorem leaf_eq_element (t : Tag) : leaf t = element t (pure ()) := emit_append _ _

end Render

/-! ### Pieces and layouts -/

namespace Abreast

variable {profile : Profile} {d : ι → Dialect} {R : Phase → Phase → (α : Type) → (ι → Rendering α) → Prop}
  (h : Abreast profile d R)
include h

theorem done (i : Phase) {α : Type} (a : α) : R i i α fun _ => pure a :=
  h.pass i (.done a)

theorem seq {i j k : Phase} {m n : ι → Rendering Unit} (hm : R i j Unit m) (hn : R j k Unit n) :
    R i k Unit (fun x => do m x; n x) := h.andThen hm fun _ => hn

theorem visit {i j : Phase} {m : ι → Rendering Unit} (hm : R i j Unit m) : R i j Unit fun x => visit (m x) := by
  simp only [Render.visit_eq]
  exact h.andThen (h.pass i .look) fun _ => hm

theorem text (t : String) (s : Style) : R .flowing .flowing Unit fun _ => text t s := by
  simp only [Rendering.text]
  split
  · exact h.done _ ()
  · exact h.append _ _

/-! ### Containers -/

section

variable {m : ι → Rendering Unit}

theorem fixed {t : Tag} (ht : DistinctNames t.attributes) (hn : t.name ≠ "ScrollView")
    (hm : R .settled .settled Unit m) : R .settled .settled Unit fun x => Rendering.element t (m x) :=
  h.element (Common.fixed ht hn) hm

theorem leaf {f : Dialect → Tag} (hf : Common f) : R .settled .settled Unit fun x => leaf (f (d x)) := by
  simp only [Render.leaf_eq_element]
  exact h.element hf (h.done _ ())

theorem padded (spacing : Spacing) (a : Alignment) (hm : R .settled .settled Unit m) :
    R .settled .settled Unit fun x => padded (d x) spacing a (m x) := h.element (Common.padded spacing a) hm

theorem flushed (hm : R .settled .flowing Unit m) : R .settled .settled Unit fun x => flushed (d x) (m x) := by
  simp only [Layout.flushed, h.agree]
  exact h.seq hm h.flush

theorem stacked (hm : R .settled .flowing Unit m) : R .settled .settled Unit fun x => stacked (d x) (m x) :=
  h.element Common.stack (h.flushed hm)

theorem grid (spacing : String) (columns : List String) (rows : Nat) (hm : R .settled .settled Unit m) :
    R .settled .settled Unit fun x => grid spacing columns rows (m x) := by
  simp only [grid_eq_element]
  exact h.fixed (gridTag_distinct spacing) (by simp [gridTag]) (h.seq (h.whole (gridDefinitions_whole columns rows)) hm)

theorem panel (kind : PanelKind) (st : Style) (hm : R .settled .flowing Unit m) :
    R .settled .settled Unit fun x => panel (d x) kind st (m x) :=
  h.padded _ _ (h.element (Common.panel kind) (h.stacked hm))

theorem label (a : Alignment) (extra : Profile → List Attribute)
    (he : ∀ p, ((extra p).map Prod.fst).Sublist ["TextColor"]) (t : String) :
    R .settled .settled Unit fun x => label a (extra (d x).profile) t := h.leaf (Common.label a extra he t)

theorem textBlock (a : Alignment) (t : String) : R .settled .settled Unit fun x => textBlock (d x) a t :=
  h.padded _ _ (h.label a (fun _ => []) (fun _ => List.nil_sublist _) t)

theorem errorBlock (a : Alignment) (message : String) :
    R .settled .settled Unit fun x => errorBlock (d x) a message :=
  h.padded _ _ (h.label a (fun p => [("TextColor", p.errorColor)]) (fun _ => List.Sublist.refl _) message)

theorem htmlBlock (a : Alignment) (level? : Option Nat) (html : String) :
    R .settled .settled Unit fun x => htmlBlock (d x) a ((level?.map (d x).headerAttributes).getD []) html :=
  h.padded _ _ (h.element (Common.htmlLabel level? a) (h.whole (Whole.raw html)))

end

/-! ### Items one after the other -/

section

variable {ν : Type} {items : List ν}

theorem inOrder {i : Phase} {f : ι → ν → Rendering Unit} (hf : ∀ a ∈ items, R i i Unit fun x => f x a) :
    R i i Unit fun x => inOrder (items.map (f x)) := by
  induction items with
  | nil => exact h.done _ ()
  | cons a r ih =>
    exact h.seq (hf a (List.mem_cons_self ..)) (ih fun b hb => hf b (List.mem_cons_of_mem a hb))

theorem inRows {i : Phase} {α : Type} {f : ι → Nat → α → Rendering Unit} {e : ι → ν → α}
    (hf : ∀ row, ∀ a ∈ items, R i i Unit fun x => f x row (e x a)) :
    R i i Unit fun x => inRows (f x) (items.map (e x)) := by
  induction items generalizing f with
  | nil => exact h.done _ ()
  | cons a r ih =>
    simp only [Layout.inRows, List.map_cons, List.mapIdx_cons]
    refine h.seq (hf 0 a (List.mem_cons_self ..)) ?_
    exact ih (f := fun x row => f x (row + 1)) fun row b hb => hf (row + 1) b (List.mem_cons_of_mem a hb)

theorem codeRow (st : Style) (row : String) : R .settled .settled Unit fun x => codeRow (d x) st row := by
  have hr : Common fun d => ⟨"Label", [("LineBreakMode", "NoWrap"),
      ("HorizontalTextAlignment", st.alignment.ofLabel), ("FontFamily", d.profile.codeFontFamily), ("Text", row)]⟩ :=
    ⟨fun _ => by simp [DistinctNames], fun _ => by simp, fun hp => by rw [hp]⟩
  exact h.leaf hr

theorem codeRows (st : Style) (rows : List String) : R .settled .settled Unit fun x => codeRows (d x) st rows :=
  h.padded _ _ (h.element Common.stack (h.inOrder fun _ _ => h.codeRow st _))

/-! ### Parts of blocks -/

theorem listRow (st : Style) (row : Nat) {marker : String} {margins : Margins} {isInline : Bool} {p : ι → Part}
    (hp : Part.Abreast R margins isInline p) :
    R .settled .settled Unit fun x => listRow (d x) st row ⟨marker, p x⟩ := by
  have hm : DistinctNames (if marker = "" then [] else [("Text", marker)]) := by
    split <;> simp [DistinctNames]
  simp only [Layout.listRow, hp.margins]
  exact h.seq (h.element (Common.listMarker _ row) (h.leaf (Common.fixed hm (by simp))))
    (h.element (Common.stackCell 1 row) (h.flushed (h.enter (hp.render st))))

theorem list (st : Style) {marker : ν → String} {margins : ν → Margins} {isInline : ν → Bool} {p : ι → ν → Part}
    (hp : ∀ a ∈ items, Part.Abreast R (margins a) (isInline a) fun x => p x a) :
    R .settled .settled Unit fun x => list (d x) st (items.map fun a => ⟨marker a, p x a⟩) := by
  simp only [Layout.list, List.length_map]
  exact h.padded _ _ (h.grid _ _ _ (h.inRows fun row a ha => h.listRow st row (hp a ha)))

theorem contained {margins : Margins} {isInline : Bool} {p : ι → Part} (hp : Part.Abreast R margins isInline p)
    (st : Style) : R .settled .settled Unit fun x => contained (d x) (p x) st := by
  simp only [Layout.contained, hp.isInline]
  split
  · exact h.flushed (h.enter (hp.render st))
  · exact h.stacked (h.enter (hp.render st))

end

section

variable {ν : Type} {part : ι → ν → Part} {margins : ν → Margins} {isInline : ν → Bool}

theorem numberedList (st : Style) {items : List (NumberedItem ν)}
    (hp : ∀ a ∈ items, Part.Abreast R (margins a.child) (isInline a.child) fun x => part x a.child) :
    R .settled .settled Unit fun x =>
      Layout.list (d x) st (numbers (items.map (NumberedItem.map (part x)))) := by
  let places := (ordinals 0 (items.map NumberedItem.number)).zip items
  have hn (x : ι) : numbers (items.map (NumberedItem.map (part x))) =
      places.map fun a => ⟨toString a.1 ++ ".", part x a.2.child⟩ := by
    rw [numbers_map, numbered, List.map_map]
    rfl
  simp only [hn]
  refine h.list st fun a ha => hp a.2 ?_
  exact (List.of_mem_zip ha).2

theorem taskList (st : Style) {items : List (TaskItem ν)}
    (hp : ∀ a ∈ items, Part.Abreast R (margins a.child) (isInline a.child) fun x => part x a.child) :
    R .settled .settled Unit fun x => Layout.list (d x) st (checks (items.map (TaskItem.map (part x)))) := by
  have hn (x : ι) : checks (items.map (TaskItem.map (part x))) =
      items.map fun a => ⟨if a.checked then "✓" else "", part x a.child⟩ := by
    rw [checks, List.map_map]
    rfl
  simp only [hn]
  exact h.list st hp

theorem definitionList (st : Style) {groups : List (DefinitionGroup ν)}
    (hg : ∀ e ∈ groups, ∀ n ∈ e.terms ++ e.descriptions,
      Part.Abreast R (margins n) (isInline n) fun x => part x n) :
    R .settled .settled Unit fun x => definitionList (d x) st (groups.map (DefinitionGroup.map (part x))) := by
  simp only [Layout.definitionList, List.map_map]
  refine h.inOrder fun e he => ?_
  have hn := hg e he
  simp only [Function.comp_apply, definitionGroup, DefinitionGroup.map, List.length_map]
  refine h.seq (h.inRows fun row n hm => ?_) (h.inRows fun row n hm => ?_)
  · exact h.padded _ _ (h.flushed (h.enter ((hn n (List.mem_append_left _ hm)).render _)))
  · exact h.padded _ _ (h.contained (hn n (List.mem_append_right _ hm)) _)

theorem placedCell (t : Table ν) (st : Style) (row : Nat) {p : Placement ν}
    (hp : ∀ n ∈ p.contents, Part.Abreast R (margins n) (isInline n) fun x => part x n) :
    R .settled .settled Unit fun x => placedCell (d x) (t.map (part x)) st row (p.map (part x)) := by
  obtain ⟨column, span, cell?⟩ := p
  have hs : ((if span > 1 then [("Grid.ColumnSpan", toString span)] else []).map Prod.fst).Sublist
      ["Grid.ColumnSpan"] := by
    split
    · exact List.Sublist.refl _
    · exact List.nil_sublist _
  cases cell? with
  | none =>
    exact h.element (Common.cellFrame row hs column)
      (h.element (Common.cellContent (t.columnAlignment column)) (h.done _ ()))
  | some cell =>
    let alignment := cell.alignment.getD (t.columnAlignment column)
    have hc := h.contained (hp cell.content (List.mem_singleton_self _)) { st with alignment }
    exact h.element (Common.cellFrame row hs column) (h.element (Common.cellContent alignment) hc)

theorem tableRow (t : Table ν) (row : Nat) {cells : Row ν}
    (hc : ∀ n ∈ cells.placed t.columns.toNat, Part.Abreast R (margins n) (isInline n) fun x => part x n) :
    R .settled .settled Unit fun x => tableRow (d x) (t.map (part x)) row (cells.map (part x)) := by
  have hl (x : ι) : (t.map (part x)).headers.length = t.headers.length := List.length_map _
  have hw (x : ι) : (t.map (part x)).columns = t.columns := rfl
  simp only [tableRow_eq, Row.place_map, List.map_map, hl, hw]
  refine h.inOrder fun p hp => h.placedCell t _ row fun n hn => hc n ?_
  exact List.mem_flatMap.2 ⟨p, hp, hn⟩

theorem table {t : Table ν} (ht : ∀ n ∈ t.placed, Part.Abreast R (margins n) (isInline n) fun x => part x n) :
    R .settled .settled Unit fun x => table (d x) (t.map (part x)) := by
  let blank : Table Part := t.map fun n => ⟨margins n, isInline n, fun _ => pure ()⟩
  have hs (x : ι) : tableStart (d x) (t.map (part x)) = tableStart (d x) blank := by
    rw [tableStart, tableStart, Table.allRows_map, Table.allRows_map, List.length_map, List.length_map]
    rfl
  simp only [table_eq, hs, Table.allRows_map]
  refine h.framed blank (h.inRows fun row cells hc => h.tableRow t row fun n hn => ht n ?_)
  exact List.mem_flatMap.2 ⟨cells, hc, hn⟩

end

theorem footnoteRow (row : Nat) {m : ι → Rendering Unit} (hm : R .settled .flowing Unit m) :
    R .settled .settled Unit fun x => footnoteRow (d x) row (m x) := by
  have hl : DistinctNames [("Text", toString (row + 1))] := by simp [DistinctNames]
  have hc : DistinctNames (cellPlace 1 row) := by simp [DistinctNames, cellPlace_names]
  exact h.seq (h.element (Common.footnoteNumber row) (h.leaf (Common.fixed hl (by simp))))
    (h.fixed hc (by simp) (h.stacked hm))

theorem footnotes {ν : Type} {items : List ν} {f : ι → ν → Rendering Unit}
    (hf : ∀ a ∈ items, R .settled .flowing Unit fun x => f x a) :
    R .settled .settled Unit fun x => footnotes (d x) (items.map (f x)) := by
  simp only [Layout.footnotes, List.length_map]
  exact h.seq (h.leaf Common.rule) (h.grid _ _ _ (h.inRows fun row a ha => h.footnoteRow row (hf a ha)))

end Abreast

end XamlDoc
