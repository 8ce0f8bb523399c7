import XamlDoc.Proofs.Render.Together

/-!
# Related renderings

Two renderings of one document that differ in what handlers do, and the relations between them that go through
layouts, nodes and documents: those of two renderings abreast in one dialect.
-/

namespace XamlDoc

open Markup (Call Tag WriteError Writing)
open Rendering Layout Render

/-- A relation between renderings, from one phase to another, that relates what writes nothing, and what
writes while no runs wait, with itself, and is kept by sequences. -/
structure Congruent (profile : Profile)
    (R : Phase → Phase → (α : Type) → Rendering α → Rendering α → Prop) : Prop where
  pass (i : Phase) {α : Type} (m : Html.Pass α) : R i i α (ofPass m) (ofPass m)
  andThen {i j k : Phase} {α β : Type} {m m' : Rendering α} {f f' : α → Rendering β} :
    R i j α m m' → (∀ a, R j k β (f a) (f' a)) → R i k β (m >>= f) (m' >>= f')
  enter {j : Phase} {α : Type} {m m' : Rendering α} : R .flowing j α m m' → R .settled j α m m'
  leave {i : Phase} {α : Type} {m m' : Rendering α} : R i .settled α m m' → R i .flowing α m m'
  append (r : Run) (a : Alignment) : R .flowing .flowing Unit (appendRun r a) (appendRun r a)
  comment (t : String) : R .flowing .flowing Unit (comment t) (comment t)
  flush : R .flowing .settled Unit (flush profile) (flush profile)
  write {α : Type} (w : Writing (Except WriteError α)) : R .settled .settled α (ofWriting w) (ofWriting w)
  depth : R .settled .settled Nat (ofQuiet Writing.depth) (ofQuiet Writing.depth)

/-- A relation between two renderings as one of renderings abreast. -/
def Both (R : Phase → Phase → (α : Type) → Rendering α → Rendering α → Prop) (i j : Phase) (α : Type)
    (m : Bool → Rendering α) : Prop := R i j α (m false) (m true)

namespace Congruent

variable {R : Phase → Phase → (α : Type) → Rendering α → Rendering α → Prop} {profile : Profile}

theorem seq (h : Congruent profile R) {i j k : Phase} {m m' n n' : Rendering Unit} (hm : R i j Unit m m')
    (hn : R j k Unit n n') : R i k Unit (do m; n) (do m'; n') := h.andThen hm fun _ => hn

theorem emit (h : Congruent profile R) (cs : List Call) : R .settled .settled Unit (emit cs) (emit cs) := h.write _

theorem abreast {d : Dialect} (h : Congruent d.profile R) : Abreast d.profile (fun _ => d) (Both R) where
  agree _ := rfl
  pass i _ m _ := h.pass i m
  andThen := h.andThen
  enter := h.enter
  leave := h.leave
  append := h.append
  comment := h.comment
  flush := h.flush
  whole _ := h.emit _
  element _ hm := h.seq (h.emit _) (h.seq hm (h.emit _))
  framed _ _ hm := h.andThen h.depth fun _ => h.seq (h.emit _) (h.seq hm (h.write _))

end Congruent

/-! ### Handlers -/

namespace Congruent

variable {R : Phase → Phase → (α : Type) → Rendering α → Rendering α → Prop} {s s' : Scope}
  (h : Congruent s.dialect.profile R) (hd : s'.dialect = s.dialect)
include h hd

theorem media (g : MediaHandler → MediaHandler) (st : Style) (items : List MediaItem)
    {alternative alternative' : Rendering Unit}
    (hm : ∀ type, s'.extensions.mediaHandler? type = (s.extensions.mediaHandler? type).map g)
    (ho : ∀ (handler : MediaHandler) (item : MediaItem) {fallback fallback' : List String → Rendering Unit},
      (∀ messages, R .flowing .flowing Unit (fallback messages) (fallback' messages)) →
        R .settled .flowing Unit (offered (handler item) s st.alignment fallback)
          (offered (g handler item) s' st.alignment fallback'))
    (ha : R .flowing .flowing Unit alternative alternative') :
    R .flowing .flowing Unit (media s st alternative items) (media s' st alternative' items) := by
  induction items with
  | nil => exact ha
  | cons item r ih =>
    have hb : item.type?.bind s'.extensions.mediaHandler? =
        (item.type?.bind s.extensions.mediaHandler?).map g := by
      cases item.type? with
      | none => rfl
      | some type => exact hm type
    have hp : s'.profile = s.profile := congrArg Dialect.profile hd
    rw [Render.media, Render.media, hb]
    cases item.type?.bind s.extensions.mediaHandler? with
    | none => exact ih
    | some handler =>
      rw [hp]
      exact h.seq h.flush (ho handler item fun _ => ih)

theorem code (g : CodeHandler → CodeHandler) (st : Style) (b : CodeBlock)
    (hc : ∀ language, s'.extensions.codeHandler? language = (s.extensions.codeHandler? language).map g)
    (ho : ∀ (handler : CodeHandler) {fallback fallback' : List String → Rendering Unit},
      (∀ messages, R .settled .settled Unit (fallback messages) (fallback' messages)) →
        R .settled .settled Unit (offered (handler b) s st.alignment fallback)
          (offered (g handler b) s' st.alignment fallback')) :
    R .settled .settled Unit (code s st b) (code s' st b) := by
  have hb : b.language.bind s'.extensions.codeHandler? =
      (b.language.bind s.extensions.codeHandler?).map g := by
    cases b.language with
    | none => rfl
    | some language => exact hc language
  rw [Render.code, Render.code, hb, Render.plainCode, Render.plainCode, hd]
  cases b.language.bind s.extensions.codeHandler? with
  | none => exact h.abreast.codeRows _ _
  | some handler =>
    refine ho handler fun messages => h.seq ?_ (h.abreast.codeRows _ _)
    exact h.abreast.inOrder fun _ _ => h.abreast.errorBlock _ _

end Congruent

/-! ### Documents -/

/-- Settings in which handlers may do different things, but what they do is related. -/
structure Setting.Related (R : Phase → Phase → (α : Type) → Rendering α → Rendering α → Prop)
    (S S' : Setting) : Prop where
  dialect : S'.dialect = S.dialect
  emojiSource : S'.extensions.emojiSource? = S.extensions.emojiSource?
  evaluator : S'.extensions.evaluator? = S.extensions.evaluator?
  media {s s' : Scope} (st : Style) (items : List MediaItem) {alternative alternative' : Rendering Unit} :
    s.setting = S → s'.setting = S' → R .flowing .flowing Unit alternative alternative' →
      R .flowing .flowing Unit (media s st alternative items) (media s' st alternative' items)
  code {s s' : Scope} (st : Style) (b : CodeBlock) : s.setting = S → s'.setting = S' →
    R .settled .settled Unit (code s st b) (code s' st b)

namespace Setting.Related

variable {R : Phase → Phase → (α : Type) → Rendering α → Rendering α → Prop} {S S' : Setting}

theorem settings (hS : Setting.Related R S S') : InSettings (Both R) (fun _ => S.dialect) S.extensions.emojiSource?
    S.extensions.evaluator? fun x => cond x S' S where
  dialect
    | false => rfl
    | true => hS.dialect
  emojiSource
    | false => rfl
    | true => hS.emojiSource
  evaluator
    | false => rfl
    | true => hS.evaluator
  media st items _ hs ha := hS.media st items (hs false) (hs true) ha
  code st b hs := hS.code st b (hs false) (hs true)

/-- Related settings make related renderings of every document. -/
theorem document (h : Congruent S.dialect.profile R) (hS : Setting.Related R S S') (limit : Nat) (d : Document)
    (inclusion : Bool) :
    R .settled .settled Unit (document S limit d inclusion) (document S' limit d inclusion) :=
  hS.settings.document h.abreast (fun m => h.pass _ m) limit d inclusion

end Setting.Related

end XamlDoc
