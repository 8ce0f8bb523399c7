import Mathlib.Logic.Relation
import XamlDoc.Proofs.Document.Induction
import XamlDoc.Proofs.Footnote.Exhaustion

/-!
# Nested footnotes as a closure

What the scan of a footnote refers to does not depend on what was numbered before. Numbering the footnotes in
footnotes closes the numbered ones under these references, and adds nothing else.
-/

namespace XamlDoc

namespace Footnotes

variable {t : Footnotes} {key other source target : String}

/-! ### References of a footnote -/

/-- The keys that the scan of a footnote records, when nothing but the footnote itself has been expanded. -/
def refs (t : Footnotes) (key : String) : List String := (t.numberContent key ∅).keys

theorem mem_refs : other ∈ t.refs key ↔ t.Records key other := by
  rw [refs, (numberContent_spec key ∅).2]
  exact or_iff_right List.not_mem_nil

theorem mem_numberContent {n : Numbering} :
    other ∈ (t.numberContent key n).keys ↔ other ∈ n.keys ∨ other ∈ t.refs key := by
  rw [mem_refs]
  exact (numberContent_spec key n).2 other

/-- The content of a footnote has a reference to the target at some depth. -/
def Refers (t : Footnotes) (source target : String) (autoExpand : Bool) : Prop :=
  ∃ f, t.get? source = some f ∧ Node.Within f.content (.footnoteReference target autoExpand)

theorem Refers.declares {autoExpand : Bool} (h : t.Refers source target autoExpand) : t.Declares source := by
  obtain ⟨f, hf, -⟩ := h
  exact declares_of_get? hf

theorem footnoteLink?_eq_some {n : Node} {link : FootnoteLink} :
    n.footnoteLink? = some link ↔ n = .footnoteReference link.key link.autoExpand := by
  cases n with
  | footnoteReference key autoExpand =>
    rw [Node.footnoteLink?, Option.some.injEq, Node.footnoteReference.injEq, FootnoteLink.mk.injEq]
  | _ => exact iff_of_false nofun nofun

theorem refers_iff {autoExpand : Bool} :
    t.Refers source target autoExpand ↔ ⟨target, autoExpand⟩ ∈ t.links source := by
  rw [Refers, links]
  cases t.get? source with
  | none =>
    refine iff_of_false ?_ List.not_mem_nil
    rintro ⟨_, hf, -⟩
    cases hf
  | some f =>
    simp only [Option.some.injEq, exists_eq_left', Node.footnoteLinks, List.mem_filterMap, footnoteLink?_eq_some,
      exists_eq_right, Node.mem_walkAll]

theorem reaches_of_refers (h : Relation.ReflTransGen (t.Refers · · true) key source) (hd : t.Declares source) :
    t.Reaches key source := by
  induction h with
  | refl => exact .refl
  | tail _ hr ih => exact (ih hr.declares).step (refers_iff.1 hr) hd

/-- A plain reference is recorded wherever expansions lead to it. -/
theorem mem_refs_of_refers (h : Relation.ReflTransGen (t.Refers · · true) key source)
    (hr : t.Refers source target false) (hd : t.Declares target) : target ∈ t.refs key :=
  mem_refs.2 ⟨hd, .inl ⟨source, reaches_of_refers h hr.declares, refers_iff.1 hr⟩⟩

/-! ### The closure -/

/-- The keys hold everything that one of them refers to. -/
def Holds (t : Footnotes) (keys : String → Prop) : Prop := ∀ key, keys key → ∀ other ∈ t.refs key, keys other

/-- The loop never leaves a closed set of keys. -/
theorem numberFrom_subset {keys : String → Prop} (hc : t.Holds keys) (steps index : Nat) (n : Numbering)
    (hn : ∀ key ∈ n.keys, keys key) : ∀ key ∈ (t.numberFrom steps index n).keys, keys key := by
  induction steps generalizing index n with
  | zero => exact hn
  | succ steps ih =>
    rw [numberFrom]
    cases hk : n.keys[index]? with
    | none => exact hn
    | some key =>
      refine ih (index + 1) (t.numberContent key n) fun other ho => ?_
      rcases mem_numberContent.1 ho with ho | ho
      · exact hn other ho
      · exact hc key (hn key (List.mem_of_getElem? hk)) other ho

theorem numberNested_grows (n : Numbering) :
    ∃ new, (t.numberNested n).keys = n.keys ++ new ∧ ∀ key ∈ new, t.Declares key := by
  obtain ⟨last, h, -⟩ := (Nesting.start (t := t) n).numberFrom
    (n.keys.length + t.size) (Nat.add_le_add_left distinct_le_size _)
  exact h.grows

theorem holds_numberNested (n : Numbering) : t.Holds (· ∈ (t.numberNested n).keys) :=
  fun _ hk _ ho => mem_numberNested_of_records hk (mem_refs.1 ho)

theorem numberNested_of_holds {n : Numbering} (h : t.Holds (· ∈ n.keys)) : t.numberNested n = n := by
  obtain ⟨new, hm, -⟩ := numberNested_grows (t := t) n
  have hold (key : String) (hk : key ∈ new) : key ∈ n.keys :=
    numberFrom_subset h _ 0 n (fun _ hn => hn) key (hm ▸ List.mem_append_right _ hk)
  have hnew : new = [] := by
    refine List.eq_nil_iff_forall_not_mem.2 fun key hk => ?_
    exact (List.nodup_append.1 (hm ▸ (t.numberNested n).nodup)).2.2 key (hold key hk) key hk rfl
  exact Numbering.ext_keys (by rw [hm, hnew, List.append_nil])

/-- The numbering of footnotes in footnotes comes to its end. It keeps all numbers, adds only declared footnotes, each
once, and numbers the least set of keys that holds the given ones and is closed under references. These are what the
scan of a footnote adds to any numbering, and to them belong the plain references at any depth of what expansions lead
to. Numbering once more changes nothing. -/
theorem numberNested_closure (t : Footnotes) (n : Numbering) :
    let r := t.numberNested n
    (∀ steps, n.keys.length + t.distinct ≤ steps → t.numberFrom? t.distinct steps 0 n = some r) ∧
      (∃ new, r.keys = n.keys ++ new ∧ ∀ key ∈ new, t.Declares key) ∧ r.keys.Nodup ∧
      (∀ key number, n.number? key = some number → r.number? key = some number) ∧
      (∀ key (m : Numbering) other, other ∈ (t.numberContent key m).keys ↔ other ∈ m.keys ∨ other ∈ t.refs key) ∧
      t.Holds (· ∈ r.keys) ∧
      (∀ keys : String → Prop, (∀ key ∈ n.keys, keys key) → t.Holds keys → ∀ key ∈ r.keys, keys key) ∧
      (∀ key source target, Relation.ReflTransGen (t.Refers · · true) key source → t.Refers source target false →
        t.Declares target → target ∈ t.refs key) ∧
      t.numberNested r = r := by
  have hgrows := numberNested_grows (t := t) n
  have hprefix : n.keys <+: (t.numberNested n).keys := by
    obtain ⟨new, hm, -⟩ := hgrows
    exact ⟨new, hm.symm⟩
  have hholds := holds_numberNested (t := t) n
  refine ⟨fun steps hs => numberFrom?_numberNested n (Nat.le_refl _) hs, hgrows, (t.numberNested n).nodup,
    fun key number => Numbering.number?_of_prefix hprefix, fun key m other => mem_numberContent, hholds,
    fun keys hn hc => ?_,
    fun key source target => mem_refs_of_refers, numberNested_of_holds hholds⟩
  exact numberFrom_subset hc _ 0 n hn

/-- A footnote that is only looked through gets no number, although it leads back to the first one. -/
example :
    let t : Footnotes := ⟨[⟨"a", [.footnoteReference "b" true]⟩,
      ⟨"b", [.strong [.footnoteReference "a" true, .footnoteReference "c" false]]⟩,
      ⟨"c", [.footnoteReference "a" false, .footnoteReference "d" false]⟩]⟩
    (t.numberNested ((∅ : Numbering).add "a")).keys = ["a", "c"] := by
  decide

end Footnotes

end XamlDoc
