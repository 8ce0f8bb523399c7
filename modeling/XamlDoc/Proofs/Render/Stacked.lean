import XamlDoc.Proofs.Footnote.Basic
import XamlDoc.Proofs.Render.Together

/-!
# Renderings with a stack of footnotes

Renderings and passes that keep the footnotes being expanded on a stack, which they change and hand on, after errors
as well. They are made up of steps that do not know the stack and of references, which put a footnote on the
stack, go through its content and take it off again. Whatever the steps, the stack is in the end as it was found.
-/

namespace XamlDoc

open Markup (Writer WriteError Writing)

/-! ### Stacks -/

/-- Footnotes of a table that are being expanded, the innermost first. -/
structure Footnotes.Stack (t : Footnotes) where
  keys : List String
  nodup : keys.Nodup
  declared : ∀ key ∈ keys, t.Declares key

namespace Footnotes.Stack

variable {t : Footnotes}

def empty : Stack t := ⟨[], List.nodup_nil, fun _ h => (List.not_mem_nil h).elim⟩

instance : EmptyCollection (Stack t) := ⟨empty⟩

/-- Begin to expand a declared footnote, unless it is being expanded. -/
def begin? (e : Stack t) (key : String) : Option (Stack t) :=
  if h : (t.get? key).isSome ∧ key ∉ e.keys then
    some ⟨key :: e.keys, List.nodup_cons.2 ⟨h.2, e.nodup⟩, fun _ hk =>
      (List.mem_cons.1 hk).elim (fun hk => hk ▸ h.1) (e.declared _)⟩
  else none

def finish (e : Stack t) : Stack t where
  keys := e.keys.tail
  nodup := e.nodup.sublist (List.tail_sublist _)
  declared key hk := e.declared key (List.mem_of_mem_tail hk)

theorem keys_of_begin? {e inside : Stack t} {key : String} (h : e.begin? key = some inside) :
    inside.keys = key :: e.keys := by
  rw [begin?] at h
  split at h
  · cases h
    rfl
  · cases h

theorem finish_of_begin? {e inside : Stack t} {key : String} (h : e.begin? key = some inside) :
    inside.finish = e := by
  rw [begin?] at h
  split at h
  · cases h
    rfl
  · cases h

theorem begin?_eq_none {e : Stack t} {key : String} (h : e.begin? key = none) (hd : t.Declares key) :
    key ∈ e.keys := by
  by_contra hk
  rw [begin?, dif_pos ⟨hd, hk⟩] at h
  cases h

/-- No more footnotes are being expanded at a time than there are different keys. -/
theorem length_le (e : Stack t) : e.keys.length ≤ t.distinct := length_le_distinct e.nodup e.declared

end Footnotes.Stack

variable {t : Footnotes} {α β : Type}

/-! ### Passes -/

namespace Html

/-- A pass that changes the stack and hands it on. -/
abbrev Stacked (t : Footnotes) (α : Type) := Traversal → t.Stack → Except Halt (α × Traversal) × t.Stack

namespace Stacked

/-- A pass that does not know the stack. -/
def blind (m : Pass α) : Stacked t α := fun p e => (m p, e)

def andThen (m : Stacked t α) (f : α → Stacked t β) : Stacked t β := fun p e =>
  match m p e with
  | (.ok (a, p), e) => f a p e
  | (.error halt, e) => (.error halt, e)

/-- The content of a footnote unless it is being expanded, or else its number. -/
def reference (key : String) (content number : Stacked t α) : Stacked t α := fun p e =>
  match e.begin? key with
  | none => number p e
  | some inside =>
    let (result, inside) := content p inside
    (result, inside.finish)

end Stacked

/-- Passes made up of steps, with at most `n` footnotes expanded in each other. -/
inductive Steps (t : Footnotes) : Nat → (α : Type) → Stacked t α → Prop where
  | step {n : Nat} {α : Type} {m : Pass α} : Step α m → Steps t n α (.blind m)
  | andThen {n : Nat} {α β : Type} {m : Stacked t α} {f : α → Stacked t β} :
    Steps t n α m → (∀ a, Steps t n β (f a)) → Steps t n β (m.andThen f)
  | reference {n : Nat} {α : Type} {key : String} {content number : Stacked t α} :
    Steps t n α content → Steps t (n + 1) α number → Steps t (n + 1) α (.reference key content number)

theorem Steps.restores {n : Nat} {m : Stacked t α} (h : Steps t n α m) (p : Traversal) (e : t.Stack) :
    (m p e).2 = e := by
  induction h generalizing p e with
  | step _ => rfl
  | @andThen _ _ _ m f _ _ ihm ihf =>
    have hm := ihm p e
    rw [Stacked.andThen]
    cases hr : m p e with
    | mk result inner =>
      rw [hr] at hm
      cases result with
      | ok r => exact (ihf r.1 r.2 inner).trans hm
      | error halt => exact hm
  | @reference _ _ key content number _ _ ihc ihn =>
    rw [Stacked.reference]
    cases hb : e.begin? key with
    | none => exact ihn p e
    | some inside => exact (congrArg _ (ihc p inside)).trans (Footnotes.Stack.finish_of_begin? hb)

end Html

/-! ### Renderings -/

namespace Render

open Rendering

/-- What renderings do to the waiting runs, or write, at a time. -/
inductive Step : (α : Type) → Rendering α → Prop where
  | append (r : Run) (a : Alignment) : Step Unit (appendRun r a)
  | comment (t : String) : Step Unit (comment t)
  | flush (profile : Profile) : Step Unit (flush profile)
  | write {α : Type} (w : Writing (Except WriteError α)) : Step α (ofWriting w)
  | quiet {α : Type} (w : Writing α) : Step α (ofQuiet w)

/-- A relation of renderings abreast that holds where all of them do the same step and is kept by sequences. -/
structure Stepwise {ι : Type} (R : (α : Type) → (ι → Rendering α) → Prop) : Prop where
  step {α : Type} {m : Rendering α} : Step α m → R α fun _ => m
  pass {α : Type} {m : Html.Pass α} : Html.Step α m → R α fun _ => ofPass m
  andThen {α β : Type} {m : ι → Rendering α} {f : ι → α → Rendering β} :
    R α m → (∀ a, R β fun x => f x a) → R β fun x => m x >>= f x

namespace Stepwise

variable {ι : Type} {R : (α : Type) → (ι → Rendering α) → Prop} (h : Stepwise R)
include h

theorem abreast (d : Dialect) : Abreast d.profile (fun _ => d) fun _ _ => R where
  agree _ := rfl
  pass _ _ _ hm := h.pass hm
  andThen := h.andThen
  enter hm := hm
  leave hm := hm
  append r a := h.step (.append r a)
  comment t := h.step (.comment t)
  flush := h.step (.flush d.profile)
  whole _ := h.step (.write _)
  element _ hm := h.andThen (h.step (.write _)) fun _ => h.andThen hm fun _ => h.step (.write _)
  framed _ _ hm := h.andThen (h.step (.quiet _)) fun _ =>
    h.andThen (h.step (.write _)) fun _ => h.andThen hm fun _ => h.step (.write _)

theorem settings (S : Setting) : InSettings (fun _ _ => R) (fun _ => S.dialect) S.extensions.emojiSource?
    S.extensions.evaluator? fun _ => S :=
  InSettings.same (h.abreast S.dialect) (fun w => h.step (.quiet w)) fun w => h.step (.write w)

end Stepwise

/-- A rendering that changes the stack and hands it on. -/
abbrev Stacked (t : Footnotes) (α : Type) :=
  Progress → t.Stack → Writing (Except RenderError (α × Progress) × t.Stack)

namespace Stacked

/-- A rendering that does not know the stack. -/
def blind (m : Rendering α) : Stacked t α := fun p e => Writing.bind (m p) fun r => .done (r, e)

def andThen (m : Stacked t α) (f : α → Stacked t β) : Stacked t β := fun p e =>
  (m p e).bind fun
    | (.ok (a, p), e) => f a p e
    | (.error error, e) => .done (.error error, e)

def ofPass (m : Html.Stacked t α) : Stacked t α := fun p e =>
  match m p.traversal e with
  | (.ok (a, traversal), e) => .done (.ok (a, { p with traversal }), e)
  | (.error halt, e) => .done (.error halt.error, e)

/-- The content of a footnote unless it is being expanded, or else its number. -/
def reference (key : String) (content number : Stacked t α) : Stacked t α := fun p e =>
  match e.begin? key with
  | none => number p e
  | some inside => (content p inside).bind fun (result, inside) => .done (result, inside.finish)

/-- A document inside another, which has a stack of its own. -/
def nested {t' : Footnotes} (m : Stacked t' α) : Stacked t α := fun p e =>
  (m p ∅).bind fun r => .done (r.1, e)

end Stacked

/-- Renderings made up of steps, with at most `n` footnotes expanded in each other. -/
inductive Steps : (t : Footnotes) → Nat → (α : Type) → Stacked t α → Prop where
  | step {t : Footnotes} {n : Nat} {α : Type} {m : Rendering α} : Step α m → Steps t n α (.blind m)
  | andThen {t : Footnotes} {n : Nat} {α β : Type} {m : Stacked t α} {f : α → Stacked t β} :
    Steps t n α m → (∀ a, Steps t n β (f a)) → Steps t n β (m.andThen f)
  | ofPass {t : Footnotes} {n : Nat} {α : Type} {m : Html.Stacked t α} :
    Html.Steps t n α m → Steps t n α (.ofPass m)
  | reference {t : Footnotes} {n : Nat} {α : Type} {key : String} {content number : Stacked t α} :
    Steps t n α content → Steps t (n + 1) α number → Steps t (n + 1) α (.reference key content number)
  | nested {t t' : Footnotes} {n n' : Nat} {α : Type} {m : Stacked t' α} :
    Steps t' n' α m → Steps t n α m.nested

/-- On every writer, steps leave the stack as they found it, whether they end well or not. -/
theorem Steps.restores {n : Nat} {m : Stacked t α} (h : Steps t n α m) {σ : Type} [Writer σ] (p : Progress)
    (e : t.Stack) (w : σ) : ((m p e).run w).1.2 = e := by
  induction h generalizing p w with
  | @step _ _ _ m _ =>
    rw [Stacked.blind, Writing.run_bind]
    rfl
  | @andThen _ _ _ _ m f _ _ ihm ihf =>
    have hm := ihm p e w
    rw [Stacked.andThen, Writing.run_bind]
    rcases hr : ((m p e).run w).1 with ⟨⟨error⟩ | ⟨a, q⟩, inner⟩
    · exact (congrArg Prod.snd hr).symm.trans hm
    · exact (ihf a q inner _).trans ((congrArg Prod.snd hr).symm.trans hm)
  | @ofPass _ _ _ m hm =>
    have hr := hm.restores p.traversal e
    rw [Stacked.ofPass]
    split
    · rename_i he
      rw [he] at hr
      exact hr
    · rename_i he
      rw [he] at hr
      exact hr
  | @reference _ _ _ key content number _ _ ihc ihn =>
    rw [Stacked.reference]
    cases hb : e.begin? key with
    | none => exact ihn p e w
    | some inside =>
      rw [Writing.run_bind]
      exact (congrArg _ (ihc p inside w)).trans (Footnotes.Stack.finish_of_begin? hb)
  | nested _ _ =>
    rw [Stacked.nested, Writing.run_bind]
    rfl

end Render

end XamlDoc
