import XamlDoc.Proofs.Inline.Spans
import Mathlib.Data.List.Forall2

/-!
# Runs written in parts

What waits may be written at once or in parts. The parts hold the spans and the comments of the whole, in the same
order, but a label ends with its part. Two trees that differ in such parts only are equal if they have as many labels
and comments.
-/

namespace XamlDoc

open Markup
open Markup.Content (allNamed allNamed_append allNamed_singleton named named_of_ne)

/-! ### Comments -/

namespace Markup.Content

mutual

/-- The comments at or below a content, in document order. -/
def comments : Content → List String
  | .element _ _ children => allComments children
  | .comment t => [t]
  | .text _ | .raw _ => []

def allComments : List Content → List String
  | [] => []
  | c :: r => comments c ++ allComments r

end

theorem allComments_append (a b : List Content) : allComments (a ++ b) = allComments a ++ allComments b := by
  induction a with
  | nil => rfl
  | cons c r ih => rw [List.cons_append, allComments, ih, allComments, List.append_assoc]

end Markup.Content

open Markup.Content (comments allComments allComments_append)

/-! ### Buffers one after the other -/

namespace RunBuffer

def join (a b : RunBuffer) : RunBuffer := ⟨a.alignment?.or b.alignment?, b.waiting ++ a.waiting⟩

variable (a b : RunBuffer)

theorem items_join : (a.join b).items = a.items ++ b.items := List.reverse_append ..

theorem join_empty : a.join ∅ = a := by
  obtain ⟨alignment?, waiting⟩ := a
  cases alignment? <;> rfl

theorem empty_join : join ∅ a = a := by
  obtain ⟨alignment?, waiting⟩ := a
  exact congrArg (RunBuffer.mk alignment?) (List.append_nil waiting)

theorem join_append (r : Run) (alignment : Alignment) :
    (a.join b).append r alignment = a.join (b.append r alignment) := by
  simp only [join, append, Option.or_assoc, List.cons_append]

theorem join_appendComment (t : String) : (a.join b).appendComment t = a.join (b.appendComment t) := rfl

theorem hasNoRun_join : (a.join b).hasNoRun = (a.hasNoRun && b.hasNoRun) := by
  simp only [hasNoRun, join, List.any_append, Bool.not_or, Bool.and_comm]

/-- The alignment is that of a run. -/
def Aligned : Prop := b.hasNoRun = true → b.alignment? = none

theorem aligned_empty : Aligned ∅ := fun _ => rfl

theorem aligned_append (r : Run) (alignment : Alignment) : (a.append r alignment).Aligned := by
  intro h
  simp [hasNoRun, append, RunItem.isRun] at h

variable {a b}

theorem Aligned.appendComment (h : a.Aligned) (t : String) : (a.appendComment t).Aligned := h

theorem Aligned.join (ha : a.Aligned) (hb : b.Aligned) : (a.join b).Aligned := by
  intro h
  rw [hasNoRun_join, Bool.and_eq_true] at h
  show a.alignment?.or b.alignment? = none
  rw [ha h.1, hb h.2]
  rfl

end RunBuffer

/-! ### Counting -/

def labels (k : List Content) : Nat := (allNamed "Label" k).length

def remarks (k : List Content) : Nat := (allComments k).length

/-- The comments in labels. -/
def remarksInLabels (k : List Content) : Nat :=
  ((allNamed "Label" k).flatMap fun l => allComments l.children).length

theorem labels_append (a b : List Content) : labels (a ++ b) = labels a + labels b := by
  rw [labels, allNamed_append, List.length_append, labels, labels]

theorem remarks_append (a b : List Content) : remarks (a ++ b) = remarks a + remarks b := by
  rw [remarks, allComments_append, List.length_append, remarks, remarks]

theorem remarksInLabels_append (a b : List Content) :
    remarksInLabels (a ++ b) = remarksInLabels a + remarksInLabels b := by
  rw [remarksInLabels, allNamed_append, List.flatMap_append, List.length_append, remarksInLabels, remarksInLabels]

section

variable (name : String) (attributes : List Attribute) (k : List Content)

theorem labels_element :
    labels [.element name attributes k] = (if name = "Label" then 1 else 0) + labels k := by
  rw [labels, allNamed_singleton, named]
  split
  · exact Nat.add_comm ..
  · exact (Nat.zero_add _).symm

theorem remarks_element : remarks [.element name attributes k] = remarks k :=
  congrArg List.length (List.append_nil (allComments k))

theorem remarksInLabels_element : remarksInLabels [.element name attributes k] =
    (if name = "Label" then remarks k else 0) + remarksInLabels k := by
  rw [remarksInLabels, allNamed_singleton, named]
  split
  · rw [List.flatMap_cons, List.length_append]
    rfl
  · exact (Nat.zero_add _).symm

end

/-! ### What waits, counted -/

namespace RunBuffer

variable (p : Profile) (b : RunBuffer)

def waitingComments : Nat := b.items.countP fun i => !i.isRun

theorem waitingComments_join (a : RunBuffer) :
    (a.join b).waitingComments = a.waitingComments + b.waitingComments := by
  rw [waitingComments, items_join, List.countP_append, waitingComments, waitingComments]

theorem labels_items (items : List RunItem) : labels (items.map (RunItem.content p)) = 0 := by
  induction items with
  | nil => rfl
  | cons i r ih =>
    rw [List.map_cons, ← List.singleton_append, labels_append, ih]
    cases i with
    | comment t => rfl
    | run r =>
      cases ht : r.target? <;>
        simp [labels, RunItem.content, Run.element, Element.toContent, ht, allNamed, named, Leaf.tap]

theorem remarks_items (items : List RunItem) :
    remarks (items.map (RunItem.content p)) = items.countP fun i => !i.isRun := by
  induction items with
  | nil => rfl
  | cons i r ih =>
    rw [List.map_cons, ← List.singleton_append, remarks_append, ih]
    cases i with
    | comment t =>
      rw [List.countP_cons_of_pos rfl]
      exact Nat.add_comm ..
    | run r =>
      rw [List.countP_cons_of_neg (by simp [RunItem.isRun])]
      cases ht : r.target? <;>
        simp [remarks, RunItem.content, Run.element, Element.toContent, ht, allComments, comments, Leaf.tap]

theorem labels_contents : labels (b.contents p) = if b.hasNoRun then 0 else 1 := by
  rw [contents]
  split
  · exact labels_items p b.items
  · simp [labels_element, labels_items]

theorem remarks_contents : remarks (b.contents p) = b.waitingComments := by
  rw [contents]
  split
  · exact remarks_items p b.items
  · simp only [remarks_element]
    exact remarks_items p b.items

theorem remarksInLabels_contents :
    remarksInLabels (b.contents p) = if b.hasNoRun then 0 else b.waitingComments := by
  have hi : remarksInLabels (b.items.map (RunItem.content p)) = 0 := by
    rw [remarksInLabels, List.eq_nil_of_length_eq_zero (labels_items p b.items)]
    rfl
  rw [contents]
  split
  · exact hi
  · simp only [remarksInLabels_element, remarks_element, hi]
    exact remarks_items p b.items

variable {b}

theorem contents_of_hasNoRun (h : b.hasNoRun = true) : b.contents p = b.items.map (RunItem.content p) := by
  rw [contents, if_pos h]

theorem contents_join_of_hasNoRun {a : RunBuffer} (ha : a.hasNoRun = true) (hb : b.hasNoRun = true) :
    (a.join b).contents p = a.contents p ++ b.contents p := by
  have h : (a.join b).hasNoRun = true := by rw [hasNoRun_join, ha, hb]; rfl
  rw [contents_of_hasNoRun p h, contents_of_hasNoRun p ha, contents_of_hasNoRun p hb, items_join, List.map_append]

theorem Aligned.eq_empty (h : b.Aligned) (hn : b.hasNoRun = true) (hc : b.waitingComments = 0) : b = ∅ := by
  obtain ⟨alignment?, waiting⟩ := b
  obtain rfl : alignment? = none := h hn
  have hw : waiting = [] := by
    refine List.eq_nil_iff_forall_not_mem.2 fun i hi => ?_
    have hr : i.isRun = false := by
      rw [hasNoRun, Bool.not_eq_true', List.any_eq_false] at hn
      exact Bool.eq_false_iff.2 (hn i hi)
    exact List.countP_eq_zero.1 hc i (List.mem_reverse.2 hi) (by simp [hr])
  rw [hw]
  rfl

end RunBuffer

/-! ### Parts -/

/-- What is written for a buffer when it is written in parts. -/
inductive InParts (profile : Profile) : RunBuffer → List Content → Prop where
  | nil : InParts profile ∅ []
  | part {a b : RunBuffer} {k : List Content} :
    InParts profile a k → b.Aligned → InParts profile (a.join b) (k ++ b.contents profile)

namespace InParts

variable {profile : Profile} {b : RunBuffer} {k : List Content}

theorem aligned (h : InParts profile b k) : b.Aligned := by
  induction h with
  | nil => exact RunBuffer.aligned_empty
  | part _ hb ih => exact ih.join hb

theorem spans (h : InParts profile b k) : allNamed "Span" k = allNamed "Span" (b.contents profile) := by
  induction h with
  | nil => rfl
  | part _ _ ih =>
    rw [allNamed_append, ih, RunBuffer.spans_contents, RunBuffer.spans_contents, RunBuffer.spans_contents,
      ← List.map_append]
    simp only [RunBuffer.runs, RunBuffer.items_join, List.filterMap_append]

theorem remarks_eq (h : InParts profile b k) : remarks k = b.waitingComments := by
  induction h with
  | nil => rfl
  | part _ _ ih => rw [remarks_append, ih, RunBuffer.remarks_contents, RunBuffer.waitingComments_join]

/-- Without a run, it makes no difference. -/
theorem eq_of_hasNoRun (h : InParts profile b k) (hb : b.hasNoRun = true) : k = b.contents profile := by
  induction h with
  | nil => rfl
  | part _ _ ih =>
    rw [RunBuffer.hasNoRun_join, Bool.and_eq_true] at hb
    rw [ih hb.1, RunBuffer.contents_join_of_hasNoRun profile hb.1 hb.2]

theorem labels_le (h : InParts profile b k) : (if b.hasNoRun then 0 else 1) ≤ labels k := by
  induction h with
  | nil => exact Nat.le_refl 0
  | @part a b _ _ _ ih =>
    rw [labels_append, RunBuffer.labels_contents, RunBuffer.hasNoRun_join]
    cases ha : a.hasNoRun <;> cases hb : b.hasNoRun <;> simp [ha] at ih ⊢
    omega

/-- With one label only, all runs are in one part. If all comments are in the label, nothing waits for the others. -/
theorem eq_of_counts (h : InParts profile b k) (hl : labels k ≤ if b.hasNoRun then 0 else 1) :
    remarksInLabels k ≤ remarksInLabels (b.contents profile) ∧
      (remarksInLabels k = remarksInLabels (b.contents profile) → k = b.contents profile) := by
  induction h with
  | nil => exact ⟨Nat.le_refl _, fun _ => rfl⟩
  | @part a b k ha hb ih =>
    have hle := ha.labels_le
    rw [labels_append, RunBuffer.labels_contents, RunBuffer.hasNoRun_join] at hl
    cases hna : a.hasNoRun with
    | true =>
      cases hnb : b.hasNoRun with
      | true =>
        have hn : (a.join b).hasNoRun = true := by rw [RunBuffer.hasNoRun_join, hna, hnb]; rfl
        rw [(ha.part hb).eq_of_hasNoRun hn]
        exact ⟨Nat.le_refl _, fun _ => rfl⟩
      | false =>
        -- comments that were written before the label
        rw [ha.eq_of_hasNoRun hna, remarksInLabels_append]
        simp only [RunBuffer.remarksInLabels_contents, RunBuffer.hasNoRun_join, RunBuffer.waitingComments_join,
          hna, hnb]
        refine ⟨by simp, fun he => ?_⟩
        have hz : a = ∅ := ha.aligned.eq_empty hna (by simpa using he)
        rw [hz, RunBuffer.empty_join]
        rfl
    | false =>
      cases hnb : b.hasNoRun with
      | true =>
        -- comments that were written after the label
        have hk : labels k ≤ if a.hasNoRun then 0 else 1 := by
          simpa [hna, hnb] using hl
        obtain ⟨hi, heq⟩ := ih hk
        rw [RunBuffer.remarksInLabels_contents, if_neg (by simp [hna])] at hi heq
        rw [remarksInLabels_append]
        simp only [RunBuffer.remarksInLabels_contents, RunBuffer.hasNoRun_join, RunBuffer.waitingComments_join, hna,
          hnb, Bool.false_and, Bool.false_eq_true, if_true, if_false]
        refine ⟨by omega, fun he => ?_⟩
        have hz : b = ∅ := hb.eq_empty hnb (by omega)
        have hka : k = a.contents profile := heq (by omega)
        rw [hz, RunBuffer.join_empty, hka]
        exact List.append_nil _
      | false =>
        rw [hna] at hle
        rw [hna, hnb] at hl
        simp at hle hl
        omega

end InParts

/-! ### Contents that differ in parts -/

/-- The same contents, in which waiting runs and comments have been written in parts on the left and at once on the
right. If the rendering was cut short, some may not have been written on the right. -/
inductive Parted (profile : Profile) (cut : Bool) : List Content → List Content → Prop where
  | nil : Parted profile cut [] []
  | leaf {k k' : List Content} {c : Content} :
    Parted profile cut k k' → c.element? = none → Parted profile cut (k ++ [c]) (k' ++ [c])
  | element {k k' l l' : List Content} (name : String) (attributes : List Attribute) :
    Parted profile cut k k' → Parted profile cut l l' →
      Parted profile cut (k ++ [.element name attributes l]) (k' ++ [.element name attributes l'])
  | parts {k k' l : List Content} {b : RunBuffer} :
    Parted profile cut k k' → InParts profile b l → Parted profile cut (k ++ l) (k' ++ b.contents profile)
  | lost {k k' l : List Content} {b : RunBuffer} :
    cut = true → Parted profile cut k k' → InParts profile b l → Parted profile cut (k ++ l) k'

namespace Parted

variable {profile : Profile} {cut : Bool} {k k' : List Content}

theorem mono (h : Parted profile false k k') : Parted profile cut k k' := by
  induction h with
  | nil => exact nil
  | leaf _ hc ih => exact ih.leaf hc
  | element name attributes _ _ ih ih' => exact ih.element name attributes ih'
  | parts _ hp ih => exact ih.parts hp
  | lost hcut => cases hcut

theorem eq_nil_iff (h : Parted profile false k k') : k = [] ↔ k' = [] := by
  induction h with
  | nil => exact Iff.rfl
  | leaf | element => simp
  | @parts k k' l b _ hp ih =>
    rw [List.append_eq_nil_iff, List.append_eq_nil_iff, ih]
    refine and_congr_right fun _ => ?_
    cases hn : b.hasNoRun with
    | true => rw [hp.eq_of_hasNoRun hn]
    | false =>
      have hl := hp.labels_le
      have hc := b.labels_contents profile
      rw [hn] at hl hc
      refine iff_of_false ?_ ?_
      · rintro rfl
        cases hl
      · intro he
        rw [he] at hc
        cases hc
  | lost hcut => cases hcut

/-- The spans have the same texts and styles, in the same order. -/
theorem spans_eq (h : Parted profile false k k') :
    (allNamed "Span" k).map Element.attributes = (allNamed "Span" k').map Element.attributes := by
  induction h with
  | nil => rfl
  | leaf _ _ ih => rw [allNamed_append, allNamed_append, List.map_append, List.map_append, ih]
  | element name attributes _ _ ih ih' =>
    rw [allNamed_append, allNamed_append, List.map_append, List.map_append, ih, allNamed_singleton,
      allNamed_singleton, named, named]
    split
    · rw [List.map_cons, List.map_cons, ih']
    · rw [ih']
  | parts _ hp ih => rw [allNamed_append, allNamed_append, List.map_append, List.map_append, ih, hp.spans]
  | lost hcut => cases hcut

/-- Where there are as many labels and comments, nothing was lost and no label has more than one part. -/
theorem eq_of_counts (h : Parted profile cut k k') : labels k' ≤ labels k ∧ remarks k' ≤ remarks k ∧
    (labels k = labels k' → remarks k = remarks k' → remarksInLabels k ≤ remarksInLabels k' ∧
      (remarksInLabels k = remarksInLabels k' → k = k')) := by
  induction h with
  | nil => exact ⟨Nat.le_refl _, Nat.le_refl _, fun _ _ => ⟨Nat.le_refl _, fun _ => rfl⟩⟩
  | @leaf k k' c _ _ ih =>
    simp only [labels_append, remarks_append, remarksInLabels_append]
    obtain ⟨hl, hr, hi⟩ := ih
    refine ⟨by omega, by omega, fun he he' => ?_⟩
    obtain ⟨hi, heq⟩ := hi (by omega) (by omega)
    refine ⟨by omega, fun h => ?_⟩
    rw [heq (by omega)]
  | @element k k' l l' name attributes _ _ ih ih' =>
    simp only [labels_append, remarks_append, remarksInLabels_append, labels_element, remarks_element,
      remarksInLabels_element]
    obtain ⟨hl, hr, hi⟩ := ih
    obtain ⟨hl', hr', hi'⟩ := ih'
    refine ⟨by omega, by omega, fun he he' => ?_⟩
    have hrl : remarks l = remarks l' := by omega
    obtain ⟨hi, heq⟩ := hi (by omega) (by omega)
    obtain ⟨hi', heq'⟩ := hi' (by omega) hrl
    rw [hrl]
    refine ⟨by omega, fun h => ?_⟩
    rw [heq (by omega), heq' (by omega)]
  | @parts k k' l b _ hp ih =>
    have hb := hp.labels_le
    have hrb : remarks l = remarks (b.contents profile) := hp.remarks_eq.trans (b.remarks_contents profile).symm
    have hlb := b.labels_contents profile
    simp only [labels_append, remarks_append, remarksInLabels_append]
    obtain ⟨hl, hr, hi⟩ := ih
    refine ⟨by omega, by omega, fun he he' => ?_⟩
    obtain ⟨hi, heq⟩ := hi (by omega) (by omega)
    obtain ⟨hib, heqb⟩ := hp.eq_of_counts (by omega)
    refine ⟨by omega, fun h => ?_⟩
    rw [heq (by omega), heqb (by omega)]
  | @lost k k' l b _ _ hp ih =>
    simp only [labels_append, remarks_append, remarksInLabels_append]
    obtain ⟨hl, hr, hi⟩ := ih
    refine ⟨by omega, by omega, fun he he' => ?_⟩
    obtain ⟨hi, heq⟩ := hi (by omega) (by omega)
    have hlz : l = [] := by
      have hb := hp.labels_le
      have hrl := hp.remarks_eq
      have hn : b.hasNoRun = true := by
        by_contra hn
        rw [if_neg hn] at hb
        omega
      have hz : b = ∅ := hp.aligned.eq_empty hn (by omega)
      rw [hp.eq_of_hasNoRun hn, hz]
      rfl
    rw [hlz, List.append_nil]
    exact ⟨hi, heq⟩

/-- Contents that differ in parts are the same if there are as many labels, comments and comments in labels. -/
theorem eq_iff (h : Parted profile cut k k') :
    k = k' ↔ labels k = labels k' ∧ remarks k = remarks k' ∧ remarksInLabels k = remarksInLabels k' := by
  refine ⟨fun he => he ▸ ⟨rfl, rfl, rfl⟩, fun ⟨hl, hr, hi⟩ => ?_⟩
  obtain ⟨-, -, h⟩ := h.eq_of_counts
  exact (h hl hr).2 hi

end Parted

/-! ### Trees that differ in parts -/

namespace Markup

structure Frame.Parted (profile : Profile) (cut : Bool) (f f' : Frame) : Prop where
  name : f.name = f'.name
  attributes : f.attributes = f'.attributes
  content : XamlDoc.Parted profile cut f.content.reverse f'.content.reverse

namespace TreeBuilder

structure Parted (profile : Profile) (cut : Bool) (b b' : TreeBuilder) : Prop where
  frames : List.Forall₂ (Frame.Parted profile cut) b.frames b'.frames
  done : XamlDoc.Parted profile cut b.done.reverse b'.done.reverse

theorem foldl_push_done (k done : List Content) :
    k.foldl push ⟨[], done⟩ = ⟨[], k.reverse ++ done⟩ := by
  induction k generalizing done with
  | nil => rfl
  | cons c r ih =>
    rw [List.foldl_cons]
    show r.foldl push ⟨[], c :: done⟩ = _
    rw [ih]
    simp

namespace Parted

variable {profile : Profile} {cut : Bool} {b b' : TreeBuilder}

theorem refl (profile : Profile) (cut : Bool) : Parted profile cut empty empty := ⟨.nil, .nil⟩

theorem mono (h : Parted profile false b b') : Parted profile cut b b' :=
  ⟨h.frames.imp fun _ _ hf => ⟨hf.name, hf.attributes, hf.content.mono⟩, h.done.mono⟩

theorem depth (h : Parted profile cut b b') : Writer.depth b = Writer.depth b' := h.frames.length_eq

theorem pushed {l l' : List Content} (h : Parted profile cut b b')
    (hl : ∀ {k k'}, XamlDoc.Parted profile cut k k' → XamlDoc.Parted profile cut (k ++ l) (k' ++ l')) :
    Parted profile cut (l.foldl push b) (l'.foldl push b') := by
  obtain ⟨frames, done⟩ := b
  obtain ⟨frames', done'⟩ := b'
  obtain ⟨hf, hd⟩ := h
  cases hf with
  | nil =>
    rw [foldl_push_done, foldl_push_done]
    refine ⟨.nil, ?_⟩
    simpa using hl hd
  | cons hf hr =>
    rw [foldl_push_frame, foldl_push_frame]
    refine ⟨.cons ⟨hf.name, hf.attributes, ?_⟩ hr, hd⟩
    simpa using hl hf.content

theorem added {c : Content} (h : Parted profile cut b b') (hc : c.element? = none) :
    Parted profile cut (b.push c) (b'.push c) :=
  pushed (l := [c]) h fun hk => hk.leaf hc

theorem close (h : Parted profile cut b b') :
    (Writer.perform .close b).1 = (Writer.perform .close b').1 ∧
      Parted profile cut (Writer.perform .close b).2 (Writer.perform .close b').2 := by
  obtain ⟨frames, done⟩ := b
  obtain ⟨frames', done'⟩ := b'
  obtain ⟨hf, hd⟩ := h
  cases hf with
  | nil => exact ⟨rfl, .nil, hd⟩
  | @cons f f' r r' hf hr =>
    refine ⟨rfl, ?_⟩
    have hc : Parted profile cut ([f.close].foldl push ⟨r, done⟩) ([f'.close].foldl push ⟨r', done'⟩) := by
      refine pushed ⟨hr, hd⟩ fun hk => ?_
      rw [Frame.close, Frame.close, hf.name, hf.attributes]
      exact hk.element _ _ hf.content
    exact hc

theorem closeTo (h : Parted profile cut b b') (depth : Nat) :
    Parted profile cut ((Writing.closeTo depth).run b).2 ((Writing.closeTo depth).run b').2 := by
  rw [Writing.closeTo, Writing.run, Writing.run, ← h.depth]
  generalize Writer.depth b - depth = n
  induction n generalizing b b' with
  | zero => exact h
  | succ n ih =>
    obtain ⟨ha, hc⟩ := h.close
    rw [List.replicate_succ]
    simp only [Writing.calls, Writing.run, ← ha]
    cases (Writer.perform .close b).1 with
    | ok _ => exact ih hc
    | error e => exact hc

theorem perform (h : Parted profile false b b') (c : Call) :
    (Writer.perform c b).1 = (Writer.perform c b').1 ∧
      Parted profile false (Writer.perform c b).2 (Writer.perform c b').2 := by
  cases c with
  | close => exact h.close
  | element name => exact ⟨rfl, .cons ⟨rfl, rfl, .nil⟩ h.frames, h.done⟩
  | text t => exact ⟨rfl, h.added rfl⟩
  | raw t => exact ⟨rfl, h.added rfl⟩
  | comment t => exact ⟨rfl, h.added rfl⟩
  | attr name value =>
    obtain ⟨frames, done⟩ := b
    obtain ⟨frames', done'⟩ := b'
    obtain ⟨hf, hd⟩ := h
    cases hf with
    | nil => exact ⟨rfl, .nil, hd⟩
    | @cons f f' r r' hf hr =>
      -- an element accepts attributes on one side only if it has no content on the other
      have he : f.content.isEmpty = f'.content.isEmpty := by
        have hn := hf.content.eq_nil_iff
        rw [List.reverse_eq_nil_iff, List.reverse_eq_nil_iff] at hn
        rw [Bool.eq_iff_iff, List.isEmpty_iff, List.isEmpty_iff, hn]
      simp only [Writer.perform, TreeBuilder.perform, he]
      split
      · exact ⟨rfl, .cons ⟨hf.name, congrArg (· ++ _) hf.attributes, hf.content⟩ hr, hd⟩
      · exact ⟨rfl, .cons hf hr, hd⟩

/-- A writing does not tell two such trees apart. -/
theorem run {α : Type} (m : Writing α) (h : Parted profile false b b') :
    (m.run b).1 = (m.run b').1 ∧ Parted profile false (m.run b).2 (m.run b').2 := by
  induction m generalizing b b' with
  | done a => exact ⟨rfl, h⟩
  | perform c next ih =>
    obtain ⟨ha, hp⟩ := h.perform c
    simp only [Writing.run, ← ha]
    exact ih _ hp
  | askDepth next ih =>
    rw [Writing.run, Writing.run, ← h.depth]
    exact ih _ h

theorem finish (h : Parted profile cut b b') : XamlDoc.Parted profile cut b.finish b'.finish := by
  obtain ⟨frames, done⟩ := b
  obtain ⟨frames', done'⟩ := b'
  obtain ⟨hf, hd⟩ := h
  replace hf : List.Forall₂ (Frame.Parted profile cut) frames frames' := hf
  -- every element that is still open becomes the last content of the one around it
  suffices hs : ∀ inner inner' : List Content,
      (∀ {k k'}, XamlDoc.Parted profile cut k k' →
        XamlDoc.Parted profile cut (k ++ inner.reverse) (k' ++ inner'.reverse)) →
      XamlDoc.Parted profile cut (closeFrames inner frames done).reverse (closeFrames inner' frames' done').reverse by
    exact hs [] [] fun hk => by simpa using hk
  induction hf with
  | nil =>
    intro inner inner' hi
    simpa [closeFrames] using hi hd
  | @cons f f' r r' hf hr ih =>
    intro inner inner' hi
    refine ih hd _ _ fun hk => ?_
    have hc := hi hf.content
    rw [← List.reverse_append, ← List.reverse_append] at hc
    simp only [Frame.close, List.reverse_singleton, hf.name, hf.attributes]
    exact hk.element _ _ hc

end Parted

end TreeBuilder

end Markup

end XamlDoc
