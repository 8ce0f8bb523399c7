import XamlDoc.Proofs.Footnote.Nested
import XamlDoc.Proofs.Footnote.Printing

/-!
# Scans and chains of expansions

The scan of a row and its rendering follow the same references. A footnote that is expanded in the row
is one that the scan gets to; what is printed there is recorded by the scan, but for what comes back to
the row. The other way round, what is recorded is printed, but for what the scan meets twice and for
references that are not shown.
-/

namespace XamlDoc

namespace Footnotes

variable {t : Footnotes} {c : Sight} {key other : String}

/-! ### Chains of expansions as ways of scans -/

theorem link_mem_links {v : View} {s : ShownLink} (h : s ∈ t.shown c v key) : s.link ∈ t.links key := by
  rw [shown] at h
  split at h
  · cases h
  · rename_i f hf
    rw [links, hf]
    exact Sight.link_mem_of_mem_shownAll h

abbrev rowLinks (t : Footnotes) (c : Sight) (key : String) : List ShownLink := t.shown c .blocks key

/-- The innermost of the footnotes being expanded in a row; in the beginning, that of the row. -/
def innermost (key : String) : List String → String
  | [] => key
  | inner :: _ => inner

variable {expanding : List String} {v : View}

theorem link_mem_innermost {s : ShownLink} (h : s ∈ t.shownInside c (t.rowLinks c key) v expanding) :
    s.link ∈ t.links (innermost key expanding) := by
  cases expanding with
  | nil => exact link_mem_links h
  | cons inner outer => exact link_mem_links h

namespace Expands

theorem reaches (h : t.Expands c (t.rowLinks c key) expanding v) :
    t.Reaches key (innermost key expanding) := by
  induction h with
  | start => exact .refl
  | @expand expanding v s _ hs ha hd _ ih =>
    have hl := link_mem_innermost hs
    rw [show s.link = ⟨s.link.key, true⟩ by rw [← ha]] at hl
    exact ih.step hl hd

theorem inner {root : List ShownLink} {a b : List String} (h : t.Expands c root (a ++ b) v) :
    ∃ v', t.Expands c root b v' := by
  induction a generalizing v with
  | nil => exact ⟨v, h⟩
  | cons k a ih =>
    cases h with
    | expand hx _ _ _ _ => exact ih hx

/-- Every footnote being expanded was come to by a reference in the one around it. -/
theorem outer {root : List ShownLink} {a b : List String}
    (h : t.Expands c root (a ++ other :: b) v) :
    ∃ v' s, t.Expands c root b v' ∧ s ∈ t.shownInside c root v' b ∧ s.link = ⟨other, true⟩ := by
  obtain ⟨v', h⟩ := h.inner
  cases h with
  | @expand _ v' s hx hs ha _ _ => exact ⟨v', s, hx, hs, by rw [← ha]⟩

end Expands

/-- In the row of a footnote, the expansion of a reference to the other comes back to the footnote of the
row itself, and so to the same reference again. -/
def ComesBack (t : Footnotes) (c : Sight) (key other : String) : Prop :=
  ∃ outer v s, t.Expands c (t.rowLinks c key) (key :: outer) v ∧
    (key :: outer).getLast? = some other ∧ s ∈ t.shown c v key ∧ s.link = ⟨other, true⟩

/-- A number printed in a row is recorded by the scan of the row, unless it is printed because the row
itself is expanded in it: the scan takes the footnote of the row for expanded from the beginning, the
rendering does not. -/
theorem records_or_comesBack (h : t.Prints c (t.rowLinks c key) other) :
    t.Records key other ∨ t.ComesBack c key other := by
  obtain ⟨expanding, v, s, hx, hs, hk, hd, ha⟩ := h
  have hl := link_mem_innermost hs
  rcases s with ⟨v', k, autoExpand⟩
  obtain rfl : k = other := hk
  cases autoExpand with
  | false => exact .inl ⟨hd, .inl ⟨_, hx.reaches, hl⟩⟩
  | true =>
    obtain ⟨a, b, rfl⟩ := List.append_of_mem (ha rfl)
    obtain ⟨v₁, s₁, hx₁, hs₁, hl₁⟩ := hx.outer
    have hm : ⟨k, true⟩ ∈ t.links (innermost key b) := hl₁ ▸ link_mem_innermost hs₁
    by_cases hne : innermost key b = innermost key (a ++ k :: b)
    · -- no footnote is expanded inside itself, so the one around is that of the row
      have hn : (a ++ k :: b).Nodup := hx.nodup
      have hb : b = [] := by
        cases b with
        | nil => rfl
        | cons k' b =>
          have he : k' = innermost key (a ++ k :: k' :: b) := hne
          cases a with
          | nil => simp [show k' = k from he] at hn
          | cons k'' a => simp [show k' = k'' from he] at hn
      subst hb
      cases a with
      | nil =>
        obtain rfl : key = k := hne
        exact .inr ⟨[], v, _, hx, rfl, hs, rfl⟩
      | cons k' a =>
        obtain rfl : key = k' := hne
        have hlast : (key :: (a ++ [k])).getLast? = some k := List.getLast?_concat (l := key :: a)
        exact .inr ⟨a ++ [k], v, _, hx, hlast, hs, rfl⟩
    · exact .inl ⟨hd, .inr (.inr (.inr ⟨_, _, hne, hx₁.reaches, hx.reaches, hm, hl⟩))⟩

theorem ComesBack.prints (h : t.ComesBack c key other) : t.Prints c (t.rowLinks c key) other := by
  obtain ⟨outer, v, s, hx, hlast, hs, hl⟩ := h
  have hin : other ∈ key :: outer := List.mem_of_getLast? hlast
  exact ⟨key :: outer, v, s, hx, hs, by rw [hl], hx.declares other hin, fun _ => hin⟩

/-! ### Ways of scans as chains of expansions -/

/-- All references in footnotes are shown, in either view. -/
def AllShown (t : Footnotes) (c : Sight) : Prop :=
  ∀ key v, ∀ link ∈ t.links key, ∃ s ∈ t.shown c v key, s.link = link

theorem allShown_of_contents (h : ∀ f ∈ t.entries, ∀ v,
    Node.footnoteLinks f.content ⊆ (c.shownAll v f.content).map ShownLink.link) : t.AllShown c := by
  intro key v link hl
  rw [links] at hl
  split at hl
  · cases hl
  · rename_i f hf
    have hm := h f (mem_of_get? hf) v hl
    rw [shown, hf]
    exact List.mem_map.1 hm

namespace AllShown

variable {source : String} (ha : t.AllShown c)
include ha

theorem exists_shownInside {link : FootnoteLink} (h : link ∈ t.links (innermost key expanding)) :
    ∃ s ∈ t.shownInside c (t.rowLinks c key) v expanding, s.link = link := by
  cases expanding with
  | nil => exact ha key .blocks link h
  | cons inner outer => exact ha inner v link h

/-- A footnote that the scan gets to can be expanded in the row: a way that comes to a footnote again is
cut short there. -/
theorem exists_expands (hr : t.Reaches key source) :
    ∃ expanding v, t.Expands c (t.rowLinks c key) expanding v ∧ innermost key expanding = source := by
  induction hr with
  | refl => exact ⟨[], .blocks, .start, rfl⟩
  | @step middle last _ hl hd ih =>
    obtain ⟨expanding, v, hx, rfl⟩ := ih
    by_cases hm : last ∈ expanding
    · obtain ⟨a, b, rfl⟩ := List.append_of_mem hm
      obtain ⟨v', hx'⟩ := hx.inner
      exact ⟨last :: b, v', hx', rfl⟩
    · obtain ⟨s, hs, he⟩ := ha.exists_shownInside hl
      have hk : s.link.key = last := by rw [he]
      have hx' := hx.expand hs (by rw [he]) (hk ▸ hd) (hk ▸ hm)
      exact ⟨_, _, hx', hk⟩

/-- What is recorded by the scan of another row is printed in it, unless two references expand it. -/
theorem prints_or_meetsTwice (hne : key ≠ other) (h : t.Records key other) :
    t.Prints c (t.rowLinks c key) other ∨ t.MeetsTwice key other := by
  obtain ⟨hd, ⟨source, hr, hl⟩ | ⟨he, -⟩ | ht⟩ := h
  · -- a plain reference at the end of a chain of expansions prints its number there
    obtain ⟨expanding, v, hx, rfl⟩ := ha.exists_expands hr
    obtain ⟨s, hs, he⟩ := ha.exists_shownInside hl
    refine .inl ⟨expanding, v, s, hx, hs, by rw [he], hd, fun h => ?_⟩
    rw [he] at h
    cases h
  · exact (hne he.symm).elim
  · exact .inr ht

end AllShown

end Footnotes

end XamlDoc
