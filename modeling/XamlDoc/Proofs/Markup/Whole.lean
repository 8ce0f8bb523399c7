import XamlDoc.Proofs.Markup.Gauge

/-!
# Calls that write contents

The calls that write a sequence of contents from beginning to end. A working writer accepts all of
them, and afterwards has as many elements open as before. The calls so far of a writing that goes on
may have left elements open; to close those makes the calls whole.
-/

namespace XamlDoc.Markup

def DistinctNames (attributes : List Attribute) : Prop := (attributes.map Prod.fst).Nodup

namespace Content

mutual

def calls : Content → List Call
  | .element name attributes children =>
    Call.ofTag ⟨name, attributes⟩ ++ (allCalls children ++ [.close])
  | .text t => [.text t]
  | .raw t => [.raw t]
  | .comment t => [.comment t]

def allCalls : List Content → List Call
  | [] => []
  | c :: r => calls c ++ allCalls r

end

mutual

/-- No element at or below a content carries two attributes of the same name. -/
def Distinct : Content → Prop
  | .element _ attributes children => DistinctNames attributes ∧ AllDistinct children
  | .text _ | .raw _ | .comment _ => True

def AllDistinct : List Content → Prop
  | [] => True
  | c :: r => Distinct c ∧ AllDistinct r

end

theorem allCalls_append (a b : List Content) : allCalls (a ++ b) = allCalls a ++ allCalls b := by
  induction a with
  | nil => rfl
  | cons c r ih => simp only [List.cons_append, allCalls, ih, List.append_assoc]

theorem allDistinct_append {a b : List Content} (ha : AllDistinct a) (hb : AllDistinct b) :
    AllDistinct (a ++ b) := by
  induction a with
  | nil => exact hb
  | cons c r ih => exact ⟨ha.1, ih ha.2⟩

end Content

/-! ### Whole calls -/

/-- The calls write some contents, in which no element carries two attributes of the same name. -/
def Whole (cs : List Call) : Prop := ∃ k, cs = Content.allCalls k ∧ Content.AllDistinct k

namespace Whole

theorem nil : Whole [] := ⟨[], rfl, trivial⟩

theorem append {a b : List Call} (ha : Whole a) (hb : Whole b) : Whole (a ++ b) := by
  obtain ⟨k, rfl, hk⟩ := ha
  obtain ⟨l, rfl, hl⟩ := hb
  exact ⟨k ++ l, (Content.allCalls_append k l).symm, Content.allDistinct_append hk hl⟩

theorem element {t : Tag} {cs : List Call} (ht : DistinctNames t.attributes) (h : Whole cs) :
    Whole (Call.ofTag t ++ (cs ++ [.close])) := by
  obtain ⟨k, rfl, hk⟩ := h
  exact ⟨[.element t.name t.attributes k], by simp [Content.allCalls, Content.calls], ⟨ht, hk⟩, trivial⟩

theorem leaf {t : Tag} (ht : DistinctNames t.attributes) : Whole (Call.ofTag t ++ [.close]) :=
  element ht nil

theorem raw (t : String) : Whole [.raw t] := ⟨[.raw t], rfl, trivial, trivial⟩

theorem comment (t : String) : Whole [.comment t] := ⟨[.comment t], rfl, trivial, trivial⟩

theorem flatMap {α : Type} {f : α → List Call} {l : List α} (h : ∀ a ∈ l, Whole (f a)) :
    Whole (l.flatMap f) := by
  induction l with
  | nil => exact nil
  | cons a r ih =>
    rw [List.flatMap_cons]
    exact (h a (List.mem_cons_self ..)).append (ih fun b hb => h b (List.mem_cons_of_mem a hb))

end Whole

/-- Calls that write contents but leave the last `n` elements open. -/
inductive Opening : Nat → List Call → Prop where
  | nil : Opening 0 []
  | whole {n : Nat} {cs k : List Call} : Opening n cs → Whole k → Opening n (cs ++ k)
  | tag {n : Nat} {cs : List Call} {t : Tag} :
    Opening n cs → DistinctNames t.attributes → Opening (n + 1) (cs ++ Call.ofTag t)

namespace Opening

theorem ofWhole {k : List Call} (h : Whole k) : Opening 0 k := nil.whole h

theorem ofTag {t : Tag} (h : DistinctNames t.attributes) : Opening 1 (Call.ofTag t) := nil.tag h

theorem append {m n : Nat} {a b : List Call} (ha : Opening m a) (hb : Opening n b) :
    Opening (m + n) (a ++ b) := by
  induction hb with
  | nil => simpa using ha
  | whole _ hk ih =>
    rw [← List.append_assoc]
    exact ih.whole hk
  | tag _ ht ih =>
    rw [← List.append_assoc]
    exact ih.tag ht

theorem close {n : Nat} {cs k : List Call} (h : Opening n cs) (hk : Whole k) :
    Whole (cs ++ (k ++ List.replicate n .close)) := by
  induction h generalizing k with
  | nil => simpa using hk
  | whole _ hl ih =>
    rw [List.append_assoc, ← List.append_assoc _ k]
    exact ih (hl.append hk)
  | @tag n cs t _ ht ih =>
    have he : cs ++ Call.ofTag t ++ (k ++ List.replicate (n + 1) .close) =
        cs ++ ((Call.ofTag t ++ (k ++ [.close])) ++ List.replicate n .close) := by
      simp [List.replicate_succ]
    rw [he]
    exact ih (Whole.element ht hk)

end Opening

/-! ### On a working writer -/

theorem accept?_attributes (attributes : List Attribute) (n : Nat) :
    Gauge.accept? (attributes.map fun a => Call.attr a.1 a.2) ⟨n, true⟩ = some ⟨n, true⟩ := by
  induction attributes with
  | nil => rfl
  | cons a r ih => exact ih

theorem accept?_ofTag (t : Tag) (g : Gauge) :
    Gauge.accept? (Call.ofTag t) g = some ⟨g.depth + 1, true⟩ :=
  accept?_attributes t.attributes (g.depth + 1)

mutual

theorem accept?_calls (c : Content) (g : Gauge) : g.accept? c.calls = some ⟨g.depth, false⟩ := by
  cases c with
  | element name attributes children =>
    obtain ⟨accepts, h⟩ := accept?_allCalls children ⟨g.depth + 1, true⟩
    rw [Content.calls, Gauge.accept?_append (accept?_ofTag _ g), Gauge.accept?_append h]
    rfl
  | text t => rfl
  | raw t => rfl
  | comment t => rfl

theorem accept?_allCalls (k : List Content) (g : Gauge) :
    ∃ accepts, g.accept? (Content.allCalls k) = some ⟨g.depth, accepts⟩ := by
  cases k with
  | nil => exact ⟨g.accepts, rfl⟩
  | cons c r =>
    obtain ⟨accepts, h⟩ := accept?_allCalls r ⟨g.depth, false⟩
    exact ⟨accepts, by rw [Content.allCalls, Gauge.accept?_append (accept?_calls c g), h]⟩

end

theorem Opening.accept? {n : Nat} {cs : List Call} (h : Opening n cs) (g : Gauge) :
    ∃ accepts, g.accept? cs = some ⟨g.depth + n, accepts⟩ := by
  induction h with
  | nil => exact ⟨g.accepts, rfl⟩
  | whole _ hk ih =>
    obtain ⟨k, rfl, -⟩ := hk
    obtain ⟨accepts, h⟩ := ih
    rw [Gauge.accept?_append h]
    exact accept?_allCalls k _
  | tag _ _ ih =>
    obtain ⟨accepts, h⟩ := ih
    rw [Gauge.accept?_append h]
    exact ⟨true, accept?_ofTag _ _⟩

theorem accept?_close (n m : Nat) (accepts : Bool) :
    ∃ a, Gauge.accept? (List.replicate n .close) ⟨m + n, accepts⟩ = some ⟨m, a⟩ := by
  induction n generalizing accepts with
  | zero => exact ⟨accepts, rfl⟩
  | succ n ih => exact ih false

/-! ### Elements touched -/

/-- The call changes the innermost element that is open, instead of adding to its content. -/
def Call.Touches : Call → Prop
  | .attr _ _ | .close => True
  | .element _ | .text _ | .raw _ | .comment _ => False

/-- Only elements above the first `n` open ones are touched. -/
def Gauge.Above (n : Nat) : List Call → Gauge → Prop
  | [], _ => True
  | c :: r, g => (c.Touches → n < g.depth) ∧ Above n r (g.perform c).2

theorem Gauge.above_append {n : Nat} {a b : List Call} {g g' : Gauge} (ha : g.Above n a)
    (h : g.accept? a = some g') (hb : g'.Above n b) : g.Above n (a ++ b) := by
  induction a generalizing g with
  | nil =>
    cases h
    exact hb
  | cons c r ih =>
    refine ⟨ha.1, ih ha.2 ?_⟩
    rw [Gauge.accept?] at h
    split at h
    · rename_i hc
      rw [hc]
      exact h
    · cases h

theorem above_attributes (attributes : List Attribute) {n m : Nat} (h : n < m) :
    Gauge.Above n (attributes.map fun a => Call.attr a.1 a.2) ⟨m, true⟩ := by
  induction attributes with
  | nil => trivial
  | cons a r ih => exact ⟨fun _ => h, ih⟩

mutual

theorem above_calls (c : Content) {n : Nat} {g : Gauge} (h : n ≤ g.depth) : g.Above n c.calls := by
  cases c with
  | element name attributes children =>
    obtain ⟨accepts, hc⟩ := accept?_allCalls children ⟨g.depth + 1, true⟩
    have hn : n < g.depth + 1 := Nat.lt_succ_of_le h
    have ht : g.Above n (Call.ofTag ⟨name, attributes⟩) :=
      ⟨False.elim, above_attributes attributes hn⟩
    refine Gauge.above_append ht (accept?_ofTag _ g) ?_
    exact Gauge.above_append (above_allCalls children (Nat.le_of_lt hn)) hc ⟨fun _ => hn, trivial⟩
  | text t => exact ⟨False.elim, trivial⟩
  | raw t => exact ⟨False.elim, trivial⟩
  | comment t => exact ⟨False.elim, trivial⟩

theorem above_allCalls (k : List Content) {n : Nat} {g : Gauge} (h : n ≤ g.depth) :
    g.Above n (Content.allCalls k) := by
  cases k with
  | nil => trivial
  | cons c r =>
    exact Gauge.above_append (above_calls c h) (accept?_calls c g) (above_allCalls r h)

end

open Gauged

/-- What a run of calls all of which a working writer accepts comes to. -/
structure Accepted {σ : Type} [Writer σ] [Gauged σ] (m : Writing (Except WriteError Unit)) (w : σ)
    (cs : List Call) (depth : Nat) : Prop where
  answer : (m.run w).1 = .ok ()
  depth : Writer.depth (m.run w).2 = depth
  made : m.made w = cs
  none_refused : ∀ s ∈ m.steps w, ¬ Refused s

variable {σ : Type} [Writer σ] [Gauged σ]

theorem accepted_of_accept {cs : List Call} {w : σ} {n : Nat} {accepts : Bool} (hw : Works w)
    (h : (gauge w).accept? cs = some ⟨n, accepts⟩) : Accepted (Writing.calls cs) w cs n := by
  obtain ⟨h1, h2, h3, h4⟩ := calls_of_accept hw h
  refine ⟨h1, ?_, h3, h4⟩
  rw [← depth_gauge, h2]

theorem Opening.accepted {n : Nat} {cs : List Call} (h : Opening n cs) {w : σ} (hw : Works w) :
    Accepted (Writing.calls cs) w cs (Writer.depth w + n) := by
  obtain ⟨accepts, ha⟩ := h.accept? (gauge w)
  rw [depth_gauge] at ha
  exact accepted_of_accept hw ha

theorem Whole.accepted {cs : List Call} (h : Whole cs) {w : σ} (hw : Works w) :
    Accepted (Writing.calls cs) w cs (Writer.depth w) := (Opening.ofWhole h).accepted hw

theorem accepted_allCalls {w : σ} (hw : Works w) (k : List Content) :
    Accepted (Writing.calls (Content.allCalls k)) w (Content.allCalls k) (Writer.depth w) := by
  obtain ⟨accepts, h⟩ := accept?_allCalls k (gauge w)
  rw [depth_gauge] at h
  exact accepted_of_accept hw h

theorem depth_of_made {α : Type} {m : Writing α} {w : σ} (hw : Works w) {k : List Content}
    (h : m.made w = Content.allCalls k) : Writer.depth (m.run w).2 = Writer.depth w := by
  have ha := accepted_allCalls hw k
  rw [Writing.run_eq_after, h, ← ha.made, ← Writing.run_eq_after]
  exact ha.depth

theorem accepted_closes {w : σ} (hw : Works w) {depth n : Nat} (h : Writer.depth w = depth + n) :
    Accepted (Writing.calls (List.replicate n .close)) w (List.replicate n .close) depth := by
  obtain ⟨a, ha⟩ := accept?_close n depth (gauge w).accepts
  rw [← h, ← depth_gauge] at ha
  exact accepted_of_accept hw ha

/-- To close down to a depth closes just what is open above it. -/
theorem closeTo_min {w : σ} (hw : Works w) (depth : Nat) :
    Accepted (Writing.closeTo depth) w (List.replicate (Writer.depth w - depth) .close)
      (min (Writer.depth w) depth) := by
  have hd : Writer.depth w = min (Writer.depth w) depth + (Writer.depth w - depth) := by
    rw [Nat.add_comm, Nat.sub_add_min_cancel]
  obtain ⟨h1, h2, h3, h4⟩ := accepted_closes hw hd
  exact ⟨h1, h2, h3, h4⟩

theorem closeTo_accepted {w : σ} (hw : Works w) {depth : Nat} (h : depth ≤ Writer.depth w) :
    Accepted (Writing.closeTo depth) w (List.replicate (Writer.depth w - depth) .close) depth := by
  have hc := closeTo_min hw depth
  rwa [Nat.min_eq_right h] at hc

theorem Whole.above {α : Type} {m : Writing α} {w : σ} (hw : Works w) (h : Whole (m.made w)) :
    ∀ s ∈ m.steps w, s.2.Touches → Writer.depth w < Writer.depth s.1 := by
  obtain ⟨k, hk, -⟩ := h
  have ha : (gauge w).Above (Writer.depth w) (m.made w) := by
    rw [hk]
    exact above_allCalls k (Nat.le_of_eq (depth_gauge w).symm)
  clear hk
  generalize Writer.depth w = n at ha
  induction m generalizing w with
  | done a => simp
  | perform c next ih =>
    intro s hs
    rcases List.mem_cons.1 hs with rfl | hs
    · exact depth_gauge w ▸ ha.1
    · refine ih _ (works_perform c hw) ?_ s hs
      rw [gauge_perform c hw]
      exact ha.2
  | askDepth next ih => exact ih _ hw ha

/-- Run where `n` elements are open above the first `depth`, a writing closes these. -/
def Closes (σ : Type) [Writer σ] (depth n : Nat) (finish : Writing (Except WriteError Unit)) : Prop :=
  ∀ w : σ, Writer.depth w = depth + n →
    finish.run w = (Writing.calls (List.replicate n .close)).run w ∧
      finish.steps w = (Writing.calls (List.replicate n .close)).steps w

theorem Closes.accepted {depth n : Nat} {finish : Writing (Except WriteError Unit)}
    (h : Closes σ depth n finish) {w : σ} (hw : Works w) (hd : Writer.depth w = depth + n) :
    Accepted finish w (List.replicate n .close) depth := by
  obtain ⟨hr, hs⟩ := h w hd
  have ha := accepted_closes hw hd
  refine ⟨?_, ?_, (congrArg (List.map Prod.snd) hs).trans ha.made, ?_⟩
  · rw [hr, ha.answer]
  · rw [hr, ha.depth]
  · rw [hs]
    exact ha.none_refused

omit [Gauged σ] in
theorem closes_one (depth : Nat) : Closes σ depth 1 (Writing.calls [.close]) :=
  fun _ _ => ⟨rfl, rfl⟩

omit [Gauged σ] in
theorem closes_closeTo (depth n : Nat) : Closes σ depth n (Writing.closeTo depth) := by
  intro w hd
  simp only [Writing.closeTo, Writing.run, Writing.steps, hd, Nat.add_sub_cancel_left, and_self]

/-! ### On a tree -/

namespace TreeBuilder

open Content (allCalls)

theorem after_attributes (name : String) (before attributes : List Attribute) (r : List Frame)
    (done : List Content) :
    Writer.after (attributes.map fun a => Call.attr a.1 a.2)
        (⟨⟨name, before, []⟩ :: r, done⟩ : TreeBuilder) =
      ⟨⟨name, before ++ attributes, []⟩ :: r, done⟩ := by
  induction attributes generalizing before with
  | nil => simp [Writer.after]
  | cons a l ih =>
    have ha := ih (before ++ [a])
    rw [List.append_assoc] at ha
    exact ha

theorem foldl_push_frame (k : List Content) (f : Frame) (r : List Frame) (done : List Content) :
    k.foldl push ⟨f :: r, done⟩ = ⟨{ f with content := k.reverse ++ f.content } :: r, done⟩ := by
  induction k generalizing f with
  | nil => rfl
  | cons c l ih =>
    rw [List.foldl_cons]
    show l.foldl push ⟨{ f with content := c :: f.content } :: r, done⟩ = _
    rw [ih]
    simp

mutual

/-- The calls of a content add it to what is open innermost. -/
theorem after_calls (c : Content) (b : TreeBuilder) : Writer.after c.calls b = b.push c := by
  cases c with
  | element name attributes children =>
    obtain ⟨r, done⟩ := b
    have ht : Writer.after (Call.ofTag ⟨name, attributes⟩) (⟨r, done⟩ : TreeBuilder) =
        ⟨⟨name, attributes, []⟩ :: r, done⟩ := after_attributes name [] attributes r done
    rw [Content.calls, Writer.after_append, ht, Writer.after_append, after_allCalls children,
      foldl_push_frame]
    simp [Writer.after, Writer.perform, perform, Frame.close]
  | text t | raw t | comment t => rfl

theorem after_allCalls (k : List Content) (b : TreeBuilder) :
    Writer.after (allCalls k) b = k.foldl push b := by
  cases k with
  | nil => rfl
  | cons c r => rw [allCalls, Writer.after_append, after_calls c, after_allCalls r, List.foldl_cons]

end

/-- On an empty tree, the calls of some contents build just these. -/
theorem finish_allCalls (k : List Content) : (Writer.after (allCalls k) empty).finish = k := by
  suffices h : ∀ done, (k.foldl push ⟨[], done⟩).finish = done.reverse ++ k by
    rw [after_allCalls]
    exact h []
  induction k with
  | nil => simp [finish, closeFrames]
  | cons c r ih =>
    intro done
    have hc : (r.foldl push ⟨[], c :: done⟩).finish = (c :: done).reverse ++ r := ih (c :: done)
    rw [List.foldl_cons]
    exact hc.trans (by simp)

end TreeBuilder

end XamlDoc.Markup
