import XamlDoc.Proofs.Footnote.Nested

/-!
# Scans that tell when they run out

The numbering of footnotes in footnotes once more, with levels and steps that it says to be too few. It never does
if there are as many as different keys: the footnotes that have been looked through are different and declared.
-/

namespace XamlDoc

namespace Footnotes

variable (t : Footnotes)

/-- Number the target of a link, or go on with the content of its footnote. -/
def scanLink? (inside : List FootnoteLink → Scan → Option Scan) (s : Scan) (link : FootnoteLink) : Option Scan :=
  match t.get? link.key with
  | none => some s
  | some f =>
    if link.autoExpand && !s.expanded.contains link.key then
      inside (Node.footnoteLinks f.content) { s with expanded := link.key :: s.expanded }
    else some { s with numbering := s.numbering.add link.key }

/-- Number the targets of links, unless a footnote would have to be looked through at a level that is not there. -/
def scan? : Nat → List FootnoteLink → Scan → Option Scan
  | 0, links, s => links.foldlM (t.scanLink? fun _ _ => none) s
  | n + 1, links, s => links.foldlM (t.scanLink? (scan? n)) s

def numberContent? (levels : Nat) (key : String) (numbering : Numbering) : Option Numbering :=
  match t.get? key with
  | none => some numbering
  | some f => (t.scan? levels (Node.footnoteLinks f.content) ⟨[key], numbering⟩).map Scan.numbering

/-- Go through the numbered footnotes from the one at `index` on, unless the steps run out before the end. -/
def numberFrom? (levels : Nat) : Nat → Nat → Numbering → Option Numbering
  | 0, index, numbering => if index < numbering.keys.length then none else some numbering
  | steps + 1, index, numbering =>
    match numbering.keys[index]? with
    | none => some numbering
    | some key => (t.numberContent? levels key numbering).bind (numberFrom? levels steps (index + 1))

variable {t} {levels levels' : Nat}

/-- One link is scanned with the levels there are, if the content of its footnote is. -/
theorem scanLink?_eq {link : FootnoteLink} {s : Scan}
    (hx : t.Declares link.key → link.key ∉ s.expanded →
      let inside : Scan := { s with expanded := link.key :: s.expanded }
      t.scan? levels (t.links link.key) inside = some (t.scan levels' (t.links link.key) inside)) :
    t.scanLink? (t.scan? levels) s link = some (t.scan (levels' + 1) [link] s) := by
  simp only [scanLink?, scan, List.foldl_cons, List.foldl_nil]
  cases hf : t.get? link.key with
  | none => rfl
  | some f =>
    have hlinks : t.links link.key = Node.footnoteLinks f.content := by rw [links, hf]
    rw [hlinks] at hx
    by_cases he : (link.autoExpand && !s.expanded.contains link.key) = true
    · simp only [he, if_true]
      simp only [Bool.and_eq_true, Bool.not_eq_true', List.contains_eq_mem, decide_eq_false_iff_not] at he
      exact hx (declares_of_get? hf) he.2
    · simp only [he]
      rfl

/-- With more levels than footnotes that have not been looked through, a scan does not run out, and the levels make
no difference. -/
theorem scan?_eq (l : List FootnoteLink) (s : Scan) (hn : s.expanded.Nodup)
    (hd : ∀ key ∈ s.expanded, t.Declares key) (hl : t.distinct < levels + s.expanded.length)
    (hl' : t.distinct < levels' + s.expanded.length) : t.scan? levels l s = some (t.scan levels' l s) := by
  induction levels generalizing levels' l s with
  | zero =>
    have hle := length_le_distinct hn hd
    omega
  | succ levels ih =>
    obtain _ | levels' := levels'
    · have hle := length_le_distinct hn hd
      omega
    induction l generalizing s with
    | nil => rfl
    | cons link r ihr =>
      have hinside (hk : t.Declares link.key) (key : String) (h : key ∈ link.key :: s.expanded) : t.Declares key :=
        (List.mem_cons.1 h).elim (fun h => h ▸ hk) (hd key)
      have hlink : t.scanLink? (t.scan? levels) s link = some (t.scan (levels' + 1) [link] s) := by
        refine scanLink?_eq fun hk hnew => ?_
        exact ih _ _ (List.nodup_cons.2 ⟨hnew, hn⟩) (hinside hk) (by rw [List.length_cons]; omega)
          (by rw [List.length_cons]; omega)
      -- what has been looked through stays different and declared, and grows
      obtain ⟨new, hs⟩ := exists_scanned (levels' + 1) [link] s hn hd hl'
      have hlen : s.expanded.length ≤ (t.scan (levels' + 1) [link] s).expanded.length := by
        rw [hs.expanded, List.length_append]
        omega
      have hd' (key : String) (hk : key ∈ (t.scan (levels' + 1) [link] s).expanded) : t.Declares key := by
        rw [hs.expanded] at hk
        exact (List.mem_append.1 hk).elim (hs.declares key) (hd key)
      have hr := ihr (t.scan (levels' + 1) [link] s) hs.nodup hd' (by omega) (by omega)
      rw [scan?, List.foldlM_cons, hlink, scan_cons]
      exact hr

theorem numberContent?_eq (hl : t.distinct ≤ levels) (key : String) (n : Numbering) :
    t.numberContent? levels key n = some (t.numberContent key n) := by
  rw [numberContent?, numberContent]
  cases hf : t.get? key with
  | none => rfl
  | some f =>
    have hd (k : String) (hk : k ∈ [key]) : t.Declares k := List.mem_singleton.1 hk ▸ declares_of_get? hf
    have hs : t.scan? levels (Node.footnoteLinks f.content) ⟨[key], n⟩ =
        some (t.scan t.size (Node.footnoteLinks f.content) ⟨[key], n⟩) :=
      scan?_eq _ _ (List.nodup_singleton key) hd (Nat.lt_succ_of_le hl) (Nat.lt_succ_of_le distinct_le_size)
    simp only [hs, Option.map_some]

theorem numberFrom_of_length_le {n : Numbering} {index : Nat} (h : n.keys.length ≤ index) (steps : Nat) :
    t.numberFrom steps index n = n := by
  cases steps with
  | zero => rfl
  | succ steps => rw [numberFrom, List.getElem?_eq_none h]

/-- The steps do not run out if there is one for each footnote that has a number or may get one. -/
theorem Nesting.numberFrom?_eq {first n : Numbering} {index steps steps' : Nat} (h : t.Nesting first n index)
    (hl : t.distinct ≤ levels) (hs : first.keys.length + t.distinct ≤ steps + index)
    (hs' : first.keys.length + t.distinct ≤ steps' + index) :
    t.numberFrom? levels steps index n = some (t.numberFrom steps' index n) := by
  induction steps generalizing steps' n index with
  | zero =>
    have hlen : n.keys.length ≤ index := by
      have hn := h.length_le
      omega
    rw [numberFrom?, if_neg (Nat.not_lt.2 hlen), numberFrom_of_length_le hlen]
  | succ steps ih =>
    rw [numberFrom?]
    cases hk : n.keys[index]? with
    | none => rw [numberFrom_of_length_le (List.getElem?_eq_none_iff.1 hk)]
    | some key =>
      obtain ⟨hi, -⟩ := List.getElem?_eq_some_iff.1 hk
      obtain _ | steps' := steps'
      · have hn := h.length_le
        omega
      have hr : t.numberFrom? levels steps (index + 1) (t.numberContent key n) =
          some (t.numberFrom steps' (index + 1) (t.numberContent key n)) :=
        ih (h.step hk) (by omega) (by omega)
      simp only [numberContent?_eq hl, Option.bind_some, hr, Footnotes.numberFrom, hk]

/-- The numbering of footnotes in footnotes comes to its end, with a level for each key and a step for each footnote
that has a number or may get one. -/
theorem numberFrom?_numberNested (n : Numbering) {steps : Nat} (hl : t.distinct ≤ levels)
    (hs : n.keys.length + t.distinct ≤ steps) : t.numberFrom? levels steps 0 n = some (t.numberNested n) :=
  (Nesting.start n).numberFrom?_eq hl hs (Nat.add_le_add_left distinct_le_size _)

end Footnotes

end XamlDoc
