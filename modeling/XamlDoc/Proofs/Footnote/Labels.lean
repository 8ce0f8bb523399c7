import XamlDoc.Proofs.Footnote.Basic
import XamlDoc.Proofs.Text.Numerals
import XamlDoc.Render.Node

/-!
# Labels of footnotes

While a document is rendered, keys of footnotes are referred to and numbers are asked for. Whatever the order, a key has
the number of its place among all keys that are referred to in the end, and labels tell footnotes apart.
-/

namespace XamlDoc

inductive NumberingStep where
  | reference (key : String)
  | number (key : String)

namespace NumberingStep

def referred? : NumberingStep → Option String
  | .reference key => some key
  | .number _ => none

/-- The keys that are referred to, in order. -/
def referred (steps : List NumberingStep) : List String := steps.filterMap referred?

theorem mem_referred {steps : List NumberingStep} {key : String} :
    key ∈ referred steps ↔ .reference key ∈ steps := by
  rw [referred, List.mem_filterMap]
  constructor
  · rintro ⟨s, hs, h⟩
    cases s with
    | reference k => exact Option.some.inj h ▸ hs
    | number k => cases h
  · exact fun h => ⟨_, h, rfl⟩

end NumberingStep

open NumberingStep

namespace Numbering

def answer (n : Numbering) : NumberingStep → Option Nat
  | .reference key => some (n.reference key).1
  | .number key => n.number? key

def next (n : Numbering) : NumberingStep → Numbering
  | .reference key => (n.reference key).2
  | .number _ => n

/-- The numbering after some steps. -/
def after (n : Numbering) (steps : List NumberingStep) : Numbering := steps.foldl next n

/-- The answers to steps that are made in turn. -/
def answers (n : Numbering) : List NumberingStep → List (Option Nat)
  | [] => []
  | s :: r => n.answer s :: answers (n.next s) r

variable {n : Numbering} {key : String} {number : Nat}

/-! ### Places -/

/-- The number of a key is its place among the keys, counted from one. -/
theorem number?_eq_some : n.number? key = some number ↔ ∃ i, n.keys[i]? = some key ∧ number = i + 1 := by
  rw [number?, Option.map_eq_some_iff]
  refine exists_congr fun i => and_congr ?_ eq_comm
  rw [List.idxOf?_eq_some_iff, List.getElem?_eq_some_iff]
  refine exists_congr fun hi => and_iff_left_of_imp fun hk j hj he => ?_
  exact Nat.ne_of_lt hj (n.nodup.getElem_inj_iff.1 (he.trans hk.symm))

/-- A reference answers with the number that the key has afterwards. -/
theorem number?_reference (n : Numbering) (key : String) :
    (n.reference key).2.number? key = some (n.reference key).1 := by
  obtain ⟨number, hn⟩ := number?_of_mem (n := n.add key) (mem_add.2 (.inr rfl))
  show (n.add key).number? key = some (((n.add key).number? key).getD _)
  rw [hn]
  rfl

/-! ### Runs of steps -/

theorem after_eq (n : Numbering) (steps : List NumberingStep) : n.after steps = n.addAll (referred steps) := by
  induction steps generalizing n with
  | nil => rfl
  | cons s r ih =>
    cases s with
    | reference key => exact ih (n.add key)
    | number key => exact ih n

theorem keys_after (steps : List NumberingStep) : ((∅ : Numbering).after steps).keys = (referred steps).eraseDups := by
  rw [after_eq, keys_addAll, foldl_addKey]
  show ((referred steps).filter fun key => key ∉ ([] : List String)).eraseDups = _
  rw [List.filter_eq_self.2 fun key _ => by simp]

theorem prefix_after_take (n : Numbering) (steps : List NumberingStep) (i : Nat) :
    (n.after (steps.take i)).keys <+: (n.after steps).keys := by
  have hs : n.after steps = (n.after (steps.take i)).after (steps.drop i) := by
    rw [after, after, after, ← List.foldl_append, List.take_append_drop]
  rw [hs, after_eq (n.after _)]
  exact prefix_addAll

theorem after_take_succ {steps : List NumberingStep} {s : NumberingStep} {i : Nat} (hs : steps[i]? = some s) :
    n.after (steps.take (i + 1)) = (n.after (steps.take i)).next s := by
  rw [List.take_add_one, hs, after, List.foldl_append]
  rfl

theorem length_answers (n : Numbering) (steps : List NumberingStep) : (n.answers steps).length = steps.length := by
  induction steps generalizing n with
  | nil => rfl
  | cons s r ih => rw [answers, List.length_cons, List.length_cons, ih]

theorem getElem?_answers (n : Numbering) (steps : List NumberingStep) (i : Nat) :
    (n.answers steps)[i]? = steps[i]?.map (n.after (steps.take i)).answer := by
  induction steps generalizing n i with
  | nil => rfl
  | cons s r ih =>
    cases i with
    | zero => rfl
    | succ i => exact ih (n.next s) i

/-- The number given for a reference is there to stay. -/
theorem number?_after_reference {steps : List NumberingStep} {i : Nat} (hs : steps[i]? = some (.reference key)) :
    (n.after steps).number? key = some ((n.after (steps.take i)).reference key).1 := by
  refine number?_of_prefix (n := n.after (steps.take (i + 1))) (prefix_after_take ..) ?_
  rw [after_take_succ hs]
  exact number?_reference _ key

theorem number?_after_take {steps : List NumberingStep} {i : Nat} :
    ((∅ : Numbering).after (steps.take i)).number? key = some number ↔
      .reference key ∈ steps.take i ∧ ((∅ : Numbering).after steps).number? key = some number := by
  have hk : key ∈ ((∅ : Numbering).after (steps.take i)).keys ↔ .reference key ∈ steps.take i := by
    rw [keys_after, List.mem_eraseDups, mem_referred]
  constructor
  · intro h
    obtain ⟨j, hj, -⟩ := number?_eq_some.1 h
    exact ⟨hk.1 (List.mem_of_getElem? hj), number?_of_prefix (prefix_after_take ..) h⟩
  · rintro ⟨hr, h⟩
    obtain ⟨m, hm⟩ := number?_of_mem (hk.2 hr)
    have hn := number?_of_prefix (prefix_after_take ∅ steps i) hm
    exact hm.trans (hn.symm.trans h)

end Numbering

/-! ### Labels -/

/-- What waits in the place of a reference. -/
def Run.label (number : Nat) (st : Style) : Run := .ofStyle (toString number) { st with superscript := true }

theorem Run.label_inj {m n : Nat} {st st' : Style} (h : (Run.label m st).text = (Run.label n st').text) : m = n :=
  Text.superscript_toString_inj h

theorem Render.footnoteReference_apply {s : Scope} {key : String} (hd : s.document.footnotes.Declares key)
    {autoExpand : Bool} (ha : autoExpand = true → s.inPlace key = none) (st : Style) (p : Progress) :
    Render.footnoteReference s st key autoExpand p = .done (.ok ((), ⟨(p.traversal.reference key).2,
      p.runs.append (.label (p.traversal.reference key).1 st) st.alignment⟩)) := by
  obtain ⟨f, hf⟩ := Option.isSome_iff_exists.1 hd
  have hc : (if autoExpand then s.inPlace key else none) = none := by
    split
    · exact ha ‹_›
    · rfl
  simp only [footnoteReference, hf, hc]
  show Rendering.text _ _ _ = _
  rw [Rendering.text, if_neg (Text.toString_ne_empty _)]
  rfl

namespace Numbering

/-- However references and questions are mixed, the keys are those referred to, each once, in the order of the first
reference. A reference answers with the place of its key among all of them, whenever it is made, and a question does if
the key has been referred to before; otherwise it has no answer. No two keys share a number, and the labels that wait for
their references, in whatever style, have different texts. -/
theorem answers_stable (steps : List NumberingStep) :
    let n := (∅ : Numbering).after steps
    let answers := (∅ : Numbering).answers steps
    n.keys = (referred steps).eraseDups ∧ n.keys.Nodup ∧ answers.length = steps.length ∧
      (∀ (i : Nat) key, steps[i]? = some (.reference key) →
        ∃ j, n.keys[j]? = some key ∧ answers[i]? = some (some (j + 1))) ∧
      (∀ (i : Nat) key, steps[i]? = some (.number key) → ∀ number, answers[i]? = some (some number) ↔
        .reference key ∈ steps.take i ∧ ∃ j, n.keys[j]? = some key ∧ number = j + 1) ∧
      (∀ key key' number, n.number? key = some number → n.number? key' = some number → key = key') ∧
      (∀ (i : Nat) key, steps[i]? = some (.reference key) → ∀ (s : Scope) (st : Style) autoExpand (p : Progress),
        s.document.footnotes.Declares key → (autoExpand = true → s.inPlace key = none) →
          p.traversal.numbering = (∅ : Numbering).after (steps.take i) →
            ∃ j, n.keys[j]? = some key ∧ Render.footnoteReference s st key autoExpand p = .done (.ok ((),
              ⟨{ p.traversal with numbering := (∅ : Numbering).after (steps.take (i + 1)) },
                p.runs.append (.label (j + 1) st) st.alignment⟩))) ∧
      (∀ j j' key key' st st', n.keys[j]? = some key → n.keys[j']? = some key' →
        (Run.label (j + 1) st).text = (Run.label (j' + 1) st').text → key = key') := by
  intro n answers
  have referenced {i : Nat} {key : String} (hs : steps[i]? = some (.reference key)) :
      ∃ j, n.keys[j]? = some key ∧ (((∅ : Numbering).after (steps.take i)).reference key).1 = j + 1 :=
    number?_eq_some.1 (number?_after_reference hs)
  refine ⟨keys_after steps, n.nodup, length_answers ∅ steps, fun i key hs => ?_, fun i key hs number => ?_,
    fun key key' number hk hk' => ?_, fun i key hs s st autoExpand p hd hx hp => ?_, fun j j' key key' st st' hj hj' h => ?_⟩
  · obtain ⟨j, hj, ha⟩ := referenced hs
    refine ⟨j, hj, ?_⟩
    rw [getElem?_answers, hs, Option.map_some, answer, ha]
  · rw [getElem?_answers, hs, Option.map_some, Option.some.injEq, answer, number?_after_take, number?_eq_some]
  · obtain ⟨j, hj, rfl⟩ := number?_eq_some.1 hk
    obtain ⟨j', hj', he⟩ := number?_eq_some.1 hk'
    obtain rfl := Nat.succ.inj he
    exact Option.some.inj (hj.symm.trans hj')
  · obtain ⟨j, hj, ha⟩ := referenced hs
    refine ⟨j, hj, ?_⟩
    rw [Render.footnoteReference_apply hd hx, after_take_succ hs, ← ha, ← hp]
    rfl
  · obtain rfl := Nat.succ.inj (Run.label_inj h)
    exact Option.some.inj (hj.symm.trans hj')

/-- A question before the first reference has no answer; one between two references has that of both. -/
example :
    (∅ : Numbering).answers [.number "a", .reference "b", .reference "a", .number "a", .reference "b", .reference "a"] =
      [none, some 1, some 2, some 2, some 1, some 2] := by
  decide

end Numbering

end XamlDoc
