import XamlDoc.Proofs.Footnote.Shown
import XamlDoc.Proofs.Footnote.Basic

/-!
# Footnote numbers that are printed

Where a reference is shown, either its number is printed or the content of its footnote is expanded in
place, which may show further references. A footnote that is being expanded already is not expanded
again. So what is printed is told by chains of footnotes, each expanded inside the one before it.
-/

namespace XamlDoc

namespace Footnotes

variable (t : Footnotes) (c : Sight)

def shown (v : View) (key : String) : List ShownLink :=
  match t.get? key with
  | none => []
  | some f => c.shownAll v f.content

/-- The keys of the numbers printed for a reference, in order, when the footnotes `expanding` are being
expanded and at most `levels` more can be. -/
def printed : Nat → List String → ShownLink → List String
  | 0, _, s =>
    match t.get? s.link.key with
    | none => []
    | some _ => [s.link.key]
  | levels + 1, expanding, s =>
    match t.get? s.link.key with
    | none => []
    | some _ =>
      if s.link.autoExpand && !expanding.contains s.link.key then
        (t.shown c s.view s.link.key).flatMap (printed levels (s.link.key :: expanding))
      else [s.link.key]

def printedAll (root : List ShownLink) : List String := root.flatMap (t.printed c t.size [])

/-! ### Chains of expansions -/

/-- The references shown in the innermost of the footnotes being expanded. -/
def shownInside (root : List ShownLink) (v : View) : List String → List ShownLink
  | [] => root
  | key :: _ => t.shown c v key

/-- From the references `root`, footnotes are expanded one inside the other; the innermost stands first,
in its view. -/
inductive Expands (root : List ShownLink) : List String → View → Prop where
  | start : Expands root [] .blocks
  | expand {expanding : List String} {v : View} {s : ShownLink} : Expands root expanding v →
    s ∈ t.shownInside c root v expanding → s.link.autoExpand = true → t.Declares s.link.key →
      s.link.key ∉ expanding → Expands root (s.link.key :: expanding) s.view

/-- Somewhere in the expansions the number of `key` is printed: for a plain reference, or for one inside
the expansion of its own footnote. -/
def Prints (root : List ShownLink) (key : String) : Prop :=
  ∃ expanding v s, t.Expands c root expanding v ∧ s ∈ t.shownInside c root v expanding ∧
    s.link.key = key ∧ t.Declares key ∧ (s.link.autoExpand = true → key ∈ expanding)

variable {t c} {root : List ShownLink} {expanding : List String} {v : View}

namespace Expands

theorem nodup (h : t.Expands c root expanding v) : expanding.Nodup := by
  induction h with
  | start => exact List.nodup_nil
  | expand _ _ _ _ hn ih => exact List.nodup_cons.2 ⟨hn, ih⟩

theorem declares (h : t.Expands c root expanding v) : ∀ key ∈ expanding, t.Declares key := by
  induction h with
  | start => exact fun key hk => (List.not_mem_nil hk).elim
  | expand _ _ _ hd _ ih =>
    intro key hk
    rcases List.mem_cons.1 hk with rfl | hk
    · exact hd
    · exact ih key hk

theorem length_le (h : t.Expands c root expanding v) : expanding.length ≤ t.size :=
  length_le_size h.nodup h.declares

end Expands

/-! ### What is printed -/

theorem printed_of_declares {levels : Nat} {s : ShownLink} (hd : t.Declares s.link.key)
    (hs : s.link.autoExpand = true → s.link.key ∈ expanding) :
    t.printed c levels expanding s = [s.link.key] := by
  obtain ⟨f, hf⟩ := Option.isSome_iff_exists.1 hd
  cases levels with
  | zero => rw [printed, hf]
  | succ levels =>
    have hn : ¬ (s.link.autoExpand && !expanding.contains s.link.key) = true := by
      simpa using hs
    rw [printed, hf]
    exact if_neg hn

theorem printed_expand {levels : Nat} {s : ShownLink} (hd : t.Declares s.link.key)
    (ha : s.link.autoExpand = true) (hn : s.link.key ∉ expanding) :
    t.printed c (levels + 1) expanding s =
      (t.shown c s.view s.link.key).flatMap (t.printed c levels (s.link.key :: expanding)) := by
  obtain ⟨f, hf⟩ := Option.isSome_iff_exists.1 hd
  rw [printed, hf]
  exact if_pos (by simp [ha, hn])

/-- Without media in footnotes the same numbers are printed in every view. -/
theorem printed_view (hf : ∀ f ∈ t.entries, ∀ m ∈ Node.walkAll f.content, m.isMedia = false) (levels : Nat)
    (expanding : List String) (link : FootnoteLink) (v v' : View) :
    t.printed c levels expanding ⟨v, link⟩ = t.printed c levels expanding ⟨v', link⟩ := by
  induction levels generalizing expanding link v v' with
  | zero => rfl
  | succ levels ih =>
    have content : (t.shown c v link.key).map ShownLink.link = (t.shown c v' link.key).map ShownLink.link := by
      unfold shown
      cases hget : t.get? link.key with
      | none => rfl
      | some f => exact c.map_link_shownAll (hf f (mem_of_get? hget)) v v'
    rw [printed, printed]
    simp only [ShownLink.flatMap_congr (ih (link.key :: expanding)) content]

theorem prints_of_mem_printed {levels : Nat} {s : ShownLink} {key : String}
    (hx : t.Expands c root expanding v) (hl : levels + expanding.length = t.size)
    (hs : s ∈ t.shownInside c root v expanding) (hk : key ∈ t.printed c levels expanding s) :
    t.Prints c root key := by
  induction levels generalizing expanding v s with
  | zero =>
    rw [printed] at hk
    split at hk
    · cases hk
    · rename_i f hf
      have hd := declares_of_get? hf
      obtain rfl := List.mem_singleton.1 hk
      refine ⟨expanding, v, s, hx, hs, rfl, hd, fun ha => Decidable.byContradiction fun hn => ?_⟩
      -- a further expansion would make the chain longer than the table
      have hle := (hx.expand hs ha hd hn).length_le
      rw [List.length_cons] at hle
      omega
  | succ levels ih =>
    rw [printed] at hk
    split at hk
    · cases hk
    · rename_i f hf
      have hd := declares_of_get? hf
      split at hk
      · rename_i he
        simp only [Bool.and_eq_true, Bool.not_eq_true', List.contains_eq_mem,
          decide_eq_false_iff_not] at he
        obtain ⟨s', hs', hk⟩ := List.mem_flatMap.1 hk
        refine ih (hx.expand hs he.1 hd he.2) ?_ hs' hk
        rw [List.length_cons]
        omega
      · rename_i he
        obtain rfl := List.mem_singleton.1 hk
        exact ⟨expanding, v, s, hx, hs, rfl, hd, by simpa using he⟩

/-- What is printed inside a chain of expansions is printed for the references it begins with. -/
theorem mem_printedAll_of_expands {s : ShownLink} {key : String} (hx : t.Expands c root expanding v)
    (hs : s ∈ t.shownInside c root v expanding)
    (hk : key ∈ t.printed c (t.size - expanding.length) expanding s) :
    key ∈ t.printedAll c root := by
  induction hx generalizing s with
  | start => exact List.mem_flatMap.2 ⟨s, hs, hk⟩
  | @expand expanding v s' hx hs' ha hd hn ih =>
    have hle := (hx.expand hs' ha hd hn).length_le
    rw [List.length_cons] at hle hk
    refine ih hs' ?_
    have hl : t.size - expanding.length = t.size - (expanding.length + 1) + 1 := by omega
    rw [hl, printed_expand hd ha hn]
    exact List.mem_flatMap.2 ⟨s, hs, hk⟩

theorem mem_printedAll_iff {key : String} : key ∈ t.printedAll c root ↔ t.Prints c root key := by
  constructor
  · intro h
    obtain ⟨s, hs, hk⟩ := List.mem_flatMap.1 h
    exact prints_of_mem_printed .start (Nat.add_zero _) hs hk
  · rintro ⟨expanding, v, s, hx, hs, rfl, hd, ha⟩
    refine mem_printedAll_of_expands hx hs ?_
    rw [printed_of_declares hd ha]
    exact List.mem_singleton_self _

end Footnotes

end XamlDoc
