import XamlDoc.Proofs.Document.Contents
import XamlDoc.Proofs.Document.Strings
import XamlDoc.Proofs.Html.Yields
import XamlDoc.Proofs.Markup.Characters
import XamlDoc.Proofs.Markup.Run
import XamlDoc.Proofs.Render.Compositional

/-!
# Characters of layouts

A rendering spells what it writes in an alphabet if the texts that it gets are spelled in it. The rules are one for
each step of renderings and one for each layout.
-/

namespace XamlDoc

open Markup (Attribute Call Tag Writer Writing)
open Markup.Xml (IsName isAllowed)

/-! ### Calls of writings -/

namespace Markup.Writing

variable {α β : Type} {C : Call → Prop} {R : α → Prop} {S : β → Prop}

/-- Whatever the answers are, the calls have one property and the value has the other. -/
def Makes (C : Call → Prop) (R : α → Prop) : Writing α → Prop
  | .done a => R a
  | .perform c next => C c ∧ ∀ answer, (next answer).Makes C R
  | .askDepth next => ∀ depth, (next depth).Makes C R

theorem Makes.bind {m : Writing α} {f : α → Writing β} (hm : m.Makes C R) (hf : ∀ a, R a → (f a).Makes C S) :
    (m.bind f).Makes C S := by
  induction m with
  | done a => exact hf a hm
  | perform c next ih => exact ⟨hm.1, fun answer => ih answer (hm.2 answer)⟩
  | askDepth next ih => exact fun depth => ih depth (hm depth)

theorem Makes.made {m : Writing α} (hm : m.Makes C R) {σ : Type} [Writer σ] (w : σ) : ∀ c ∈ m.made w, C c := by
  induction m generalizing w with
  | done a => exact List.forall_mem_nil _
  | perform c next ih => exact List.forall_mem_cons.2 ⟨hm.1, ih _ (hm.2 _) _⟩
  | askDepth next ih => exact ih _ (hm _) w

theorem makes_calls {cs : List Call} (h : ∀ c ∈ cs, C c) : (calls cs).Makes C fun _ => True := by
  induction cs with
  | nil => trivial
  | cons c r ih =>
    obtain ⟨hc, hr⟩ := List.forall_mem_cons.1 h
    refine ⟨hc, fun answer => ?_⟩
    cases answer with
    | ok _ => exact ih hr
    | error _ => trivial

theorem makes_closeTo (h : C .close) (depth : Nat) : (closeTo depth).Makes C fun _ => True :=
  fun _ => makes_calls fun _ hc => List.eq_of_mem_replicate hc ▸ h

end Markup.Writing

open Markup.Writing (Makes makes_calls makes_closeTo)

namespace Alphabet

variable {A : Alphabet}

/-! ### Tags -/

def SpellsAttribute (A : Alphabet) (a : Attribute) : Prop := IsName a.1 ∧ A.Spells a.2

structure SpellsTag (A : Alphabet) (t : Tag) : Prop where
  name : IsName t.name
  attributes : ∀ a ∈ t.attributes, A.SpellsAttribute a

theorem spellsTag {name : List Char} {attributes : List Attribute} (hn : isNameText name = true)
    (ha : ∀ a ∈ attributes, A.SpellsAttribute a) : A.SpellsTag ⟨String.ofList name, attributes⟩ :=
  ⟨isName_literal hn, ha⟩

theorem spells_begin {name : List Char} (hn : isNameText name = true) :
    A.SpellsCall (.element (String.ofList name)) := .element (isName_literal hn)

theorem spells_end : ∀ c ∈ [Call.close], A.SpellsCall c := List.forall_mem_singleton.2 .close

theorem spells_ofTag {t : Tag} (h : A.SpellsTag t) : ∀ c ∈ Call.ofTag t, A.SpellsCall c := by
  refine List.forall_mem_cons.2 ⟨.element h.name, fun c hc => ?_⟩
  obtain ⟨a, ha, rfl⟩ := List.mem_map.1 hc
  exact .attr (h.attributes a ha).1 (h.attributes a ha).2

theorem spells_leaf {t : Tag} (h : A.SpellsTag t) : ∀ c ∈ Call.ofTag t ++ [.close], A.SpellsCall c :=
  List.forall_mem_append.2 ⟨spells_ofTag h, spells_end⟩

theorem spells_nil : ∀ a ∈ ([] : List Attribute), A.SpellsAttribute a := fun _ ha => (List.not_mem_nil ha).elim

theorem spells_cons {name : List Char} {value : String} {r : List Attribute} (hn : isNameText name = true)
    (hv : A.Spells value) (hr : ∀ a ∈ r, A.SpellsAttribute a) :
    ∀ a ∈ (String.ofList name, value) :: r, A.SpellsAttribute a :=
  List.forall_mem_cons.2 ⟨⟨isName_literal hn, hv⟩, hr⟩

/-- An attribute whose value stands in the program, too. -/
theorem spells_fixed {name value : List Char} {r : List Attribute} (hn : isNameText name = true)
    (hv : value.all isAllowed = true) (hr : ∀ a ∈ r, A.SpellsAttribute a) :
    ∀ a ∈ (String.ofList name, String.ofList value) :: r, A.SpellsAttribute a :=
  spells_cons hn (spells_literal hv) hr

/-- An attribute that is there if its value is. -/
theorem spells_option {ι : Type} {name : List Char} {f : ι → String} {value? : Option ι} (hn : isNameText name = true)
    (h : ∀ v, value? = some v → A.Spells (f v)) :
    ∀ a ∈ (value?.map fun v => (String.ofList name, f v)).toList, A.SpellsAttribute a := by
  intro a ha
  obtain ⟨v, hv, rfl⟩ := Option.map_eq_some_iff.1 (Option.mem_toList.1 ha)
  exact ⟨isName_literal hn, h v hv⟩

theorem spells_ofLabel (a : Alignment) : A.Spells a.ofLabel := by cases a <;> exact spells_literal rfl

/-! ### What waits -/

structure SpellsRun (A : Alphabet) (r : Run) : Prop where
  text : A.Spells r.text
  hyperlink {url : String} : r.hyperlink = some url → A.Spells url

def SpellsItem (A : Alphabet) : RunItem → Prop
  | .run r => A.SpellsRun r
  | .comment t => A.Spells t

def SpellsRuns (A : Alphabet) (b : RunBuffer) : Prop := ∀ i ∈ b.waiting, A.SpellsItem i

def SpellsStyle (A : Alphabet) (st : Style) : Prop := ∀ url, st.hyperlink = some url → A.Spells url

def SpellsProfile (A : Alphabet) (p : Profile) : Prop := ∀ s ∈ p.strings, A.Spells s

theorem spells_ofStyle {t : String} {st : Style} (ht : A.Spells t) (hs : A.SpellsStyle st) :
    A.SpellsRun (.ofStyle t st) := by
  refine ⟨?_, fun {url} h => hs url h⟩
  simp only [Run.ofStyle]
  split
  · exact spells_superscript ht
  · split
    · exact spells_subscript ht
    · exact ht

theorem spells_runTag {p : Profile} (hp : A.SpellsProfile p) {r : Run} (h : A.SpellsRun r) : A.SpellsTag (r.tag p) := by
  have hf : ∀ a ∈ r.fontAttributes, A.SpellsAttribute a := by
    unfold Run.fontAttributes
    split <;> first | exact spells_nil | exact spells_fixed (by decide) (by decide) spells_nil
  have hd : ∀ a ∈ r.textDecorations, A.SpellsAttribute a := by
    unfold Run.textDecorations
    split <;> first | exact spells_nil | exact spells_fixed (by decide) (by decide) spells_nil
  have hc : ∀ a ∈ (if r.code then [("FontFamily", p.codeFontFamily)] else []), A.SpellsAttribute a := by
    split
    · exact spells_cons (by decide) (hp _ (by simp [Profile.strings])) spells_nil
    · exact spells_nil
  have hcolour : ∀ a ∈ r.colour p, A.SpellsAttribute a := by
    unfold Run.colour
    split
    · exact spells_cons (by decide) (hp _ (by simp [Profile.strings])) spells_nil
    · split
      · exact spells_cons (by decide) (hp _ (by simp [Profile.strings])) spells_nil
      · exact spells_nil
  have ht : ∀ a ∈ [("Text", r.text)], A.SpellsAttribute a := spells_cons (by decide) h.text spells_nil
  refine spellsTag (by decide) ?_
  simp only [List.forall_mem_append]
  exact ⟨⟨⟨⟨ht, hf⟩, hd⟩, hc⟩, hcolour⟩

theorem spells_run {p : Profile} (hp : A.SpellsProfile p) {r : Run} (h : A.SpellsRun r) :
    ∀ c ∈ r.calls p, A.SpellsCall c := by
  refine List.forall_mem_append.2 ⟨List.forall_mem_append.2 ⟨spells_ofTag (spells_runTag hp h), ?_⟩, spells_end⟩
  cases hu : r.target? with
  | none => exact List.forall_mem_nil _
  | some url =>
    have hl : r.hyperlink = some url := by
      unfold Run.target? at hu
      split at hu
      · cases hu
      · exact hu
    have ht : A.SpellsTag ⟨"TapGestureRecognizer", [("Command", p.hyperlinkCommand), ("CommandParameter", url)]⟩ :=
      spellsTag (by decide) (spells_cons (by decide) (hp _ (by simp [Profile.strings]))
        (spells_cons (by decide) (h.hyperlink hl) spells_nil))
    have hn : A.SpellsCall (.element "Span.GestureRecognizers") := spells_begin (by decide)
    refine List.forall_mem_append.2 ⟨List.forall_mem_cons.2 ⟨hn, spells_ofTag ht⟩, ?_⟩
    exact List.forall_mem_cons.2 ⟨.close, spells_end⟩

theorem spells_runs {p : Profile} (hp : A.SpellsProfile p) {b : RunBuffer} (h : A.SpellsRuns b) :
    ∀ c ∈ b.calls p, A.SpellsCall c := by
  have hi : ∀ c ∈ b.items.flatMap (RunItem.calls p), A.SpellsCall c := by
    intro c hc
    obtain ⟨i, hm, hc⟩ := List.mem_flatMap.1 hc
    have hi := h i (List.mem_reverse.1 hm)
    cases i with
    | run r => exact spells_run hp hi c hc
    | comment t =>
      rw [List.mem_singleton.1 hc]
      exact .comment hi
  unfold RunBuffer.calls
  dsimp only
  split
  · exact hi
  · unfold RunBuffer.label
    have ht : A.SpellsTag ⟨"Label", [("LineBreakMode", "WordWrap"),
        ("HorizontalTextAlignment", (b.alignment?.getD .left).ofLabel)]⟩ :=
      spellsTag (by decide) (spells_fixed (by decide) (by decide) (spells_cons (by decide) (spells_ofLabel _) spells_nil))
    have hn : ∀ c ∈ [Call.element "Label.FormattedText", .element "FormattedString"], A.SpellsCall c := by
      exact List.forall_mem_cons.2 ⟨spells_begin (by decide), List.forall_mem_singleton.2 (spells_begin (by decide))⟩
    simp only [List.forall_mem_append]
    exact ⟨⟨⟨spells_ofTag ht, hn⟩, hi⟩, List.forall_mem_cons.2 ⟨.close, List.forall_mem_cons.2 ⟨.close, spells_end⟩⟩⟩

/-! ### Renderings -/

/-- As long as what waits is spelled in the alphabet, so is what the rendering writes and what it leaves waiting. A
value that it ends with has the property. -/
def WritesValue (A : Alphabet) {α : Type} (R : α → Prop) (m : Rendering α) : Prop :=
  ∀ p, A.SpellsRuns p.runs →
    (m p).Makes A.SpellsCall fun r => ∀ a q, r = .ok (a, q) → R a ∧ A.SpellsRuns q.runs

abbrev Writes (A : Alphabet) (m : Rendering Unit) : Prop := A.WritesValue (fun _ => True) m

open Rendering

section

variable {α β : Type} {R : α → Prop} {S : β → Prop}

theorem writes_done {a : α} (h : R a) : A.WritesValue R (pure a) := by
  intro p hp b q hq
  cases hq
  exact ⟨h, hp⟩

theorem writes_bind {m : Rendering α} {f : α → Rendering β} (hm : A.WritesValue R m)
    (hf : ∀ a, R a → A.WritesValue S (f a)) : A.WritesValue S (m >>= f) := by
  intro p hp
  rw [bind_apply]
  refine (hm p hp).bind fun r hr => ?_
  cases r with
  | error e => exact fun _ _ h => by cases h
  | ok a =>
    obtain ⟨ha, hq⟩ := hr a.1 a.2 rfl
    exact hf a.1 ha a.2 hq

theorem writes_seq {m n : Rendering Unit} (hm : A.Writes m) (hn : A.Writes n) : A.Writes (do m; n) :=
  writes_bind hm fun _ _ => hn

theorem writes_ofWriting {m : Writing (Except Markup.WriteError α)} (h : m.Makes A.SpellsCall fun _ => True) :
    A.WritesValue (fun _ => True) (ofWriting m) := by
  intro p hp
  refine h.bind fun r _ => ?_
  cases r with
  | error e => exact fun _ _ h => by cases h
  | ok a =>
    intro b q h
    cases h
    exact ⟨trivial, hp⟩

theorem writes_emit {cs : List Call} (h : ∀ c ∈ cs, A.SpellsCall c) : A.Writes (emit cs) :=
  writes_ofWriting (makes_calls h)

theorem writes_modify {f : Progress → Progress} (h : ∀ p, A.SpellsRuns p.runs → A.SpellsRuns (f p).runs) :
    A.Writes (modify f) := by
  intro p hp a q hq
  cases hq
  exact ⟨trivial, h p hp⟩

theorem writes_ofPass {m : Html.Pass α} (h : Html.Yields R m) : A.WritesValue R (ofPass m) := by
  intro p hp
  unfold ofPass
  split
  · rename_i a t ht
    intro b q hq
    cases hq
    exact ⟨h _ _ _ ht, hp⟩
  · exact fun _ _ h => by cases h

theorem writes_visit {m : Rendering Unit} (hm : A.Writes m) : A.Writes (visit m) := by
  intro p hp
  rw [Render.visit_apply]
  split
  · exact fun _ _ h => by cases h
  · exact hm _ hp

theorem writes_element {t : Tag} {content : Rendering Unit} (ht : A.SpellsTag t) (hc : A.Writes content) :
    A.Writes (element t content) :=
  writes_seq (writes_emit (spells_ofTag ht)) (writes_seq hc (writes_emit spells_end))

theorem writes_leaf {t : Tag} (ht : A.SpellsTag t) : A.Writes (leaf t) := writes_emit (spells_leaf ht)

theorem writes_text {t : String} {st : Style} (ht : A.Spells t) (hs : A.SpellsStyle st) : A.Writes (text t st) := by
  unfold Rendering.text
  split
  · exact writes_done trivial
  · exact writes_modify fun p hp => List.forall_mem_cons.2 ⟨spells_ofStyle ht hs, hp⟩

theorem writes_comment {t : String} (ht : A.Spells t) : A.Writes (comment t) :=
  writes_modify fun _ hp => List.forall_mem_cons.2 ⟨ht, hp⟩

theorem writes_flush {profile : Profile} (hp : A.SpellsProfile profile) : A.Writes (flush profile) := by
  have take : A.WritesValue A.SpellsRuns (modifyGet fun p : Progress => (p.runs, { p with runs := ∅ })) := by
    intro p hr b q hq
    cases hq
    exact ⟨hr, List.forall_mem_nil _⟩
  exact writes_bind take fun b hb => writes_emit (spells_runs hp hb)

theorem writes_inOrder {ms : List (Rendering Unit)} (h : ∀ m ∈ ms, A.Writes m) : A.Writes (Layout.inOrder ms) := by
  induction ms with
  | nil => exact writes_done trivial
  | cons m r ih =>
    obtain ⟨hm, hr⟩ := List.forall_mem_cons.1 h
    exact writes_seq hm (ih hr)

theorem writes_inRows {ι : Type} {f : Nat → ι → Rendering Unit} {items : List ι}
    (h : ∀ i, ∀ a ∈ items, A.Writes (f i a)) : A.Writes (Layout.inRows f items) := by
  refine writes_inOrder fun m hm => ?_
  obtain ⟨i, hi, rfl⟩ := List.mem_mapIdx.1 hm
  exact h i _ (List.getElem_mem hi)

end

/-! ### Layouts -/

section

variable (d : Dialect)

theorem spells_staticResource {name : String} (h : A.Spells name) : A.Spells (staticResource name) :=
  spells_between (spells_literal rfl) (spells_literal rfl) h

theorem spells_spacing (spacing : Spacing) : A.Spells (d.spacing spacing) := by
  have hm (l r t b : Bool) : A.Spells (smallMargins l r t b) := by
    have side (present : Bool) {name : String} (h : A.Spells name) : A.Spells (if present then name else "") := by
      cases present
      · exact spells_empty
      · exact h
    refine spells_staticResource ?_
    split
    · exact spells_literal rfl
    · split
      · exact spells_literal rfl
      · simp only [spells_append]
        exact ⟨⟨⟨⟨⟨spells_literal rfl, side l (spells_literal rfl)⟩, side r (spells_literal rfl)⟩,
          side t (spells_literal rfl)⟩, side b (spells_literal rfl)⟩, spells_literal rfl⟩
  unfold Dialect.spacing
  split
  · unfold Dialect.resourceSpacing
    split <;> exact hm _ _ _ _
  · refine spells_joined (spells_literal rfl) fun s hs => ?_
    obtain ⟨n, -, rfl⟩ := List.mem_map.1 hs
    exact spells_nat _

theorem spells_alignmentOptions (a : Alignment) : ∀ b ∈ Layout.alignmentOptions a, A.SpellsAttribute b := by
  cases a with
  | left => exact spells_nil
  | center | right => exact spells_fixed (by decide) (by decide) spells_nil

theorem spells_cellPlace (column row : Nat) : ∀ a ∈ Layout.cellPlace column row, A.SpellsAttribute a :=
  spells_cons (by decide) (spells_nat _) (spells_cons (by decide) (spells_nat _) spells_nil)

theorem spells_stack : A.SpellsTag d.stack := by
  unfold Dialect.stack
  split
  · exact spellsTag (by decide) spells_nil
  · exact spellsTag (by decide) (spells_fixed (by decide) (by decide) spells_nil)

theorem spells_root : A.SpellsTag d.root := by
  unfold Dialect.root
  have rest : ∀ a ∈ [("xmlns:x", Dialect.xamlNamespace), ("Spacing", "0")], A.SpellsAttribute a :=
    spells_fixed (by decide) (by decide) (spells_fixed (by decide) (by decide) spells_nil)
  split <;> exact spellsTag (by decide) (spells_fixed (by decide) (by decide) rest)

theorem spells_gridStart {spacing : String} (hs : A.Spells spacing) {columns : List String}
    (hc : ∀ c ∈ columns, A.Spells c) (rows : Nat) :
    ∀ c ∈ Layout.gridStart spacing columns rows, A.SpellsCall c := by
  have definition {name key : List Char} {value : String} (hn : isNameText name = true) (hk : isNameText key = true)
      (hv : A.Spells value) : ∀ c ∈ Layout.definition (String.ofList name) (String.ofList key) value, A.SpellsCall c :=
    spells_leaf (spellsTag hn (spells_cons hk hv spells_nil))
  have hg : A.SpellsTag ⟨"Grid", [("RowSpacing", spacing), ("ColumnSpacing", spacing)]⟩ :=
    spellsTag (by decide) (spells_cons (by decide) hs (spells_cons (by decide) hs spells_nil))
  have ho {name : List Char} (hn : isNameText name = true) : ∀ c ∈ [Call.element (String.ofList name)], A.SpellsCall c :=
    List.forall_mem_singleton.2 (spells_begin hn)
  have hcolumns : ∀ c ∈ columns.flatMap (Layout.definition "ColumnDefinition" "Width"), A.SpellsCall c := by
    intro c hm
    obtain ⟨width, hw, hm⟩ := List.mem_flatMap.1 hm
    exact definition (by decide) (by decide) (hc width hw) c hm
  have hrows : ∀ c ∈ (List.replicate rows (Layout.definition "RowDefinition" "Height" "Auto")).flatten,
      A.SpellsCall c := by
    intro c hm
    obtain ⟨cs, hr, hm⟩ := List.mem_flatten.1 hm
    rw [List.eq_of_mem_replicate hr] at hm
    exact definition (by decide) (by decide) (spells_literal rfl) c hm
  unfold Layout.gridStart Layout.gridDefinitions
  simp only [List.forall_mem_append]
  exact ⟨spells_ofTag hg, ⟨⟨⟨⟨ho (by decide), hcolumns⟩, spells_end⟩, ho (by decide)⟩, hrows⟩,
    spells_end⟩

theorem writes_grid {spacing : String} (hs : A.Spells spacing) {columns : List String}
    (hc : ∀ c ∈ columns, A.Spells c) (rows : Nat) {cells : Rendering Unit} (h : A.Writes cells) :
    A.Writes (Layout.grid spacing columns rows cells) :=
  writes_seq (writes_emit (spells_gridStart hs hc rows)) (writes_seq h (writes_emit spells_end))

theorem writes_padded (spacing : Spacing) (a : Alignment) {content : Rendering Unit} (h : A.Writes content) :
    A.Writes (Layout.padded d spacing a content) :=
  writes_element (spellsTag (by decide)
    (spells_cons (by decide) (spells_spacing d spacing) (spells_alignmentOptions a))) h

variable {d} (hd : A.SpellsProfile d.profile)
include hd

theorem writes_flushed {content : Rendering Unit} (h : A.Writes content) : A.Writes (Layout.flushed d content) :=
  writes_seq h (writes_flush hd)

theorem writes_stacked {content : Rendering Unit} (h : A.Writes content) : A.Writes (Layout.stacked d content) :=
  writes_element (spells_stack d) (writes_flushed hd h)

omit hd in
theorem writes_htmlBlock (a : Alignment) {extra : List Attribute} (he : ∀ b ∈ extra, A.SpellsAttribute b)
    {html : String} (h : A.Spells html) : A.Writes (Layout.htmlBlock d a extra html) := by
  refine writes_padded d .block a (writes_element (spellsTag (by decide) ?_) (writes_emit ?_))
  · simp only [List.forall_mem_append]
    refine ⟨⟨spells_fixed (by decide) (by decide) spells_nil, he⟩, spells_cons (by decide) (spells_ofLabel a) ?_⟩
    exact spells_fixed (by decide) (by decide) spells_nil
  · exact List.forall_mem_singleton.2 (.raw h)

theorem writes_rule : A.Writes (Layout.rule d) := by
  have hc : A.Spells d.profile.ruleColor := hd _ (by simp [Profile.strings])
  refine writes_leaf (spellsTag (by decide) ?_)
  refine spells_cons (by decide) (spells_literal rfl) (spells_cons (by decide) hc ?_)
  refine spells_cons (by decide) (spells_literal rfl) (spells_cons (by decide) ?_ spells_nil)
  exact spells_spacing d .block

theorem writes_codeRows (st : Style) {rows : List String} (hr : ∀ row ∈ rows, A.Spells row) :
    A.Writes (Layout.codeRows d st rows) := by
  have hf : A.Spells d.profile.codeFontFamily := hd _ (by simp [Profile.strings])
  refine writes_padded d .block _ (writes_element (spells_stack d) (writes_inOrder fun m hm => ?_))
  obtain ⟨row, hrow, rfl⟩ := List.mem_map.1 hm
  refine writes_leaf (spellsTag (by decide) (spells_cons (by decide) (spells_literal rfl) ?_))
  refine spells_cons (by decide) (spells_ofLabel _) (spells_cons (by decide) hf ?_)
  exact spells_cons (by decide) (hr row hrow) spells_nil

theorem writes_panel (kind : PanelKind) (st : Style) {content : Rendering Unit} (h : A.Writes content) :
    A.Writes (Layout.panel d kind st content) := by
  have hb : A.Spells (d.panelBorder kind) := by
    cases kind <;> exact hd _ (by simp [Profile.strings, Dialect.panelBorder])
  refine writes_padded d .quoteOuter _ (writes_element (spellsTag (by decide) ?_) (writes_stacked hd h))
  exact spells_cons (by decide) (spells_spacing d .quotePanel) (spells_cons (by decide) hb spells_nil)

/-! ### Layouts of parts -/

/-- In every style that is spelled in the alphabet, so is what the part writes. -/
def WritesPart (A : Alphabet) (part : Part) : Prop := ∀ st, A.SpellsStyle st → A.Writes (part.render st)

variable {st : Style} (hs : A.SpellsStyle st)
include hs

theorem writes_list {items : List Layout.Marked} (hm : ∀ i ∈ items, A.Spells i.marker ∧ A.WritesPart i.part) :
    A.Writes (Layout.list d st items) := by
  refine writes_padded d .block _ (writes_grid (spells_literal rfl) ?_ _ (writes_inRows fun row item hi => ?_))
  · simp only [List.forall_mem_cons]
    exact ⟨spells_literal rfl, spells_literal rfl, List.forall_mem_nil _⟩
  · obtain ⟨hmarker, hpart⟩ := hm item hi
    have hpadding : ∀ a ∈ ("Padding", d.spacing (.listMarker item.part.margins.top item.part.margins.bottom)) ::
        Layout.cellPlace 0 row, A.SpellsAttribute a :=
      spells_cons (by decide) (spells_spacing d _) (spells_cellPlace 0 row)
    have htext : ∀ a ∈ (if item.marker = "" then [] else [("Text", item.marker)]), A.SpellsAttribute a := by
      split
      · exact spells_nil
      · exact spells_cons (by decide) hmarker spells_nil
    have htag : A.SpellsTag d.stack := spells_stack d
    have hstack := List.forall_mem_append.2 ⟨htag.attributes, spells_cellPlace 1 row⟩
    refine writes_seq (writes_element (spellsTag (by decide) hpadding) ?_) ?_
    · exact writes_leaf (spellsTag (by decide) htext)
    · exact writes_element (⟨htag.name, hstack⟩) (writes_flushed hd (hpart st hs))

theorem writes_contained {part : Part} (h : A.WritesPart part) : A.Writes (Layout.contained d part st) := by
  unfold Layout.contained
  split
  · exact writes_flushed hd (h st hs)
  · exact writes_stacked hd (h st hs)

theorem writes_definitionList {groups : List (DefinitionGroup Part)}
    (h : ∀ g ∈ groups, (∀ part ∈ g.terms, A.WritesPart part) ∧ ∀ part ∈ g.descriptions, A.WritesPart part) :
    A.Writes (Layout.definitionList d st groups) := by
  refine writes_inOrder fun m hm => ?_
  obtain ⟨g, hg, rfl⟩ := List.mem_map.1 hm
  obtain ⟨ht, hdescriptions⟩ := h g hg
  refine writes_seq (writes_inRows fun index part hp => ?_) (writes_inRows fun index part hp => ?_)
  · exact writes_padded d _ _ (writes_flushed hd (ht part hp _ hs))
  · exact writes_padded d _ _ (writes_contained hd hs (hdescriptions part hp))

omit hs in
theorem spells_cellFrame (row : Nat) : ∀ a ∈ d.tableCellFrame row, A.SpellsAttribute a := by
  unfold Dialect.tableCellFrame
  split
  · refine spells_cons (by decide) (spells_staticResource ?_) spells_nil
    split <;> exact spells_literal rfl
  · have hb : A.Spells d.profile.tableCellBorderColor := hd _ (by simp [Profile.strings])
    refine List.forall_mem_append.2 ⟨spells_cons (by decide) (spells_literal rfl)
      (spells_cons (by decide) hb spells_nil), spells_option (by decide) fun color hc => ?_⟩
    have hm := List.mem_of_getElem? (Option.eq_some_of_filter_eq_some hc)
    exact hd color (by simp [Profile.strings, hm])

omit hs hd in
theorem spells_cellContent : ∀ a ∈ d.tableCellContent, A.SpellsAttribute a := by
  unfold Dialect.tableCellContent
  split
  · exact spells_cons (by decide) (spells_staticResource (spells_literal rfl)) spells_nil
  · refine spells_cons (by decide) (spells_joined (spells_literal rfl) fun s hs => ?_) spells_nil
    obtain ⟨n, -, rfl⟩ := List.mem_map.1 hs
    exact spells_nat _

omit hs in
theorem writes_placedCell {t : Table Part} {row : Nat} {p : Placement Part} {st : Style} (hst : st.hyperlink = none)
    (h : ∀ cell, p.cell? = some cell → A.WritesPart cell.content) : A.Writes (Layout.placedCell d t st row p) := by
  have hspan : ∀ a ∈ (if p.span > 1 then [("Grid.ColumnSpan", toString p.span)] else []), A.SpellsAttribute a := by
    split
    · exact spells_cons (by decide) (spells_nat _) spells_nil
    · exact spells_nil
  have hframe := List.forall_mem_append.2 ⟨List.forall_mem_append.2 ⟨spells_cellFrame hd row,
    spells_cellPlace p.column row⟩, hspan⟩
  have hcontent (a : Alignment) := List.forall_mem_append.2 ⟨spells_cellContent (A := A) (d := d),
    spells_alignmentOptions a⟩
  refine writes_element (spellsTag (by decide) hframe)
    (writes_element (spellsTag (by decide) (hcontent _)) ?_)
  split
  · rename_i cell hc
    exact writes_contained hd (fun url hu => by rw [hst] at hu; cases hu) (h cell hc)
  · exact writes_done trivial

omit hs in
theorem writes_table {t : Table Part} (hcaption : ∀ caption, t.caption = some caption → A.Spells caption)
    (hid : ∀ id, t.id = some id → A.Spells id)
    (h : ∀ row ∈ t.allRows, ∀ cell, some cell ∈ row → A.WritesPart cell.content) : A.Writes (Layout.table d t) := by
  have hstart : ∀ c ∈ Layout.tableStart d t, A.SpellsCall c := by
    unfold Layout.tableStart Layout.tableFrame
    simp only [List.forall_mem_append]
    refine ⟨⟨⟨?_, spells_ofTag (spellsTag (by decide) ?_)⟩, ?_⟩, spells_gridStart (spells_literal rfl) ?_ _⟩
    · unfold Dialect.tableWrapper?
      split
      · exact spells_ofTag (spellsTag (by decide) (spells_fixed (by decide) (by decide) spells_nil))
      · exact List.forall_mem_nil _
    · exact spells_cons (by decide) (spells_spacing d .block) (spells_option (by decide) hid)
    · cases hc : t.caption with
      | none => exact List.forall_mem_nil _
      | some caption =>
        have hl : A.SpellsTag ⟨"Label", [("LineBreakMode", "WordWrap"), ("FontAttributes", "Italic"),
            ("Text", caption)]⟩ := by
          refine spellsTag (by decide) ?_
          refine spells_cons (by decide) (spells_literal rfl) (spells_cons (by decide) ?_ ?_)
          · exact spells_literal rfl
          · exact spells_cons (by decide) (hcaption caption hc) spells_nil
        exact List.forall_mem_append.2 ⟨List.forall_mem_append.2 ⟨spells_ofTag (spells_stack d), spells_ofTag hl⟩,
          spells_end⟩
    · intro c hc
      rw [List.eq_of_mem_replicate hc]
      exact spells_literal rfl
  have askDepth : A.WritesValue (fun _ => True) (ofQuiet Writing.depth) := by
    intro p hp depth a q hq
    cases hq
    exact ⟨trivial, hp⟩
  rw [Layout.table_eq]
  refine writes_bind askDepth fun depth _ => writes_seq (writes_emit hstart) (writes_seq ?_ ?_)
  · refine writes_inRows fun row cells hr => writes_inOrder fun m hm => ?_
    obtain ⟨p, hp, rfl⟩ := List.mem_map.1 hm
    exact writes_placedCell hd rfl fun cell hc => h cells hr cell (Row.mem_of_mem_placeFrom hp hc)
  · exact writes_ofWriting (makes_closeTo .close depth)

omit hs in
theorem writes_footnotes {contents : List (Rendering Unit)} (h : ∀ m ∈ contents, A.Writes m) :
    A.Writes (Layout.footnotes d contents) := by
  refine writes_seq (writes_rule hd) (writes_grid (spells_literal rfl) ?_ _ (writes_inRows fun row m hm => ?_))
  · simp only [List.forall_mem_cons]
    exact ⟨spells_literal rfl, spells_literal rfl, List.forall_mem_nil _⟩
  · refine writes_seq (writes_element (spellsTag (by decide) ?_) (writes_leaf (spellsTag (by decide) ?_)))
      (writes_element (spellsTag (by decide) (spells_cellPlace 1 row)) (writes_stacked hd (h m hm)))
    · refine List.forall_mem_append.2 ⟨spells_cons (by decide) (spells_spacing d .footnoteNumber)
        (spells_cellPlace 0 row), spells_cons (by decide) (spells_decimal _) ?_⟩
      exact spells_cons (by decide) (spells_int _) spells_nil
    · exact spells_cons (by decide) (spells_nat _) spells_nil

end

end Alphabet

end XamlDoc
