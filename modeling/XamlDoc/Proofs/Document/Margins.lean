import XamlDoc.Proofs.Document.Induction

/-!
# Margins

A node has at its top and at its bottom the margins of the nodes that stand there when first and last children are
followed through groups and wrappers. That all children are inline, by which spans in a paragraph are told, only
shortens the way to them.
-/

namespace XamlDoc

namespace Node

/-! ### Inline nodes -/

theorem allInline_eq (l : List Node) : allInline l = l.all isInline := by
  induction l with
  | nil => rfl
  | cons n r ih => rw [allInline, ih, List.all_cons]

theorem isInline_nestedBlock (l : List Node) : (nestedBlock l).isInline = (!l.isEmpty && l.all isInline) := by
  cases l with
  | nil => rfl
  | cons n r => rw [isInline, allInline_eq, List.isEmpty_cons, List.all_cons, Bool.not_false, Bool.true_and]

theorem isInline_of_mem {l : List Node} (h : (nestedBlock l).isInline = true) {n : Node} (hn : n ∈ l) :
    n.isInline = true := by
  rw [isInline_nestedBlock, Bool.and_eq_true, List.all_eq_true] at h
  exact h.2 n hn

/-- No inline node stands outside of paragraphs. -/
theorem isOutsideParagraph_of_isInline {n : Node} (h : n.isInline = true) : n.isOutsideParagraph = false := by
  induction n using Node.induction with
  | step n ih =>
    cases n with
    | singleChild c => exact ih c (List.mem_singleton_self c) h
    | standalone c => cases h
    | _ => rfl

theorem isInParagraph_eq_isInline (n : Node) : n.isInParagraph = n.isInline := by
  rw [isInParagraph]
  cases h : n.isInline with
  | false => rfl
  | true => rw [isOutsideParagraph_of_isInline h]; rfl

/-! ### Groups and wrappers -/

theorem margins_of_isInParagraph {n : Node} (h : n.isInParagraph = true) : n.margins = .none := by
  cases n <;> simp only [margins, h, if_true]

theorem margins_singleChild (n : Node) : (singleChild n).margins = n.margins := by
  have hw : (singleChild n).isInParagraph = n.isInParagraph := by
    simp only [isInParagraph, isInline, isOutsideParagraph]
  rw [margins, hw]
  split
  · rename_i h
    exact (margins_of_isInParagraph h).symm
  · rfl

theorem firstMargins_eq (l : List Node) : firstMargins l = (l.map margins).head?.getD .none := by
  cases l <;> rfl

theorem lastMargins_eq (l : List Node) : lastMargins l = (l.map margins).getLast?.getD .none := by
  induction l with
  | nil => rfl
  | cons n r ih =>
    cases r with
    | nil => rfl
    | cons m r => rw [lastMargins, ih, List.map_cons, List.map_cons, List.map_cons, List.getLast?_cons_cons]

end Node

/-! ### Edges -/

inductive Edge where
  | top
  | bottom

namespace Edge

/-- The child at the edge. -/
def child? : Edge → List Node → Option Node
  | .top, l => l.head?
  | .bottom, l => l.getLast?

theorem mem_of_child? {e : Edge} {l : List Node} {n : Node} (h : e.child? l = some n) : n ∈ l := by
  cases e with
  | top => exact List.mem_of_head? h
  | bottom => exact List.mem_of_getLast? h

theorem child?_eq_none {e : Edge} {l : List Node} : e.child? l = none ↔ l = [] := by
  cases e with
  | top => exact List.head?_eq_none_iff
  | bottom => exact List.getLast?_eq_none_iff

def margin : Edge → Margins → Bool
  | .top, m => m.top
  | .bottom, m => m.bottom

theorem margins_ext {m m' : Margins} (h : ∀ e : Edge, e.margin m = e.margin m') : m = m' := by
  cases m
  cases m'
  rw [Margins.mk.injEq]
  exact ⟨h .top, h .bottom⟩

end Edge

namespace Node

/-- The node that stands at the edge of a node. -/
def atEdge (e : Edge) : Node → Node
  | nestedBlock l =>
    match h : e.child? l with
    | some n => have := List.sizeOf_lt_of_mem (Edge.mem_of_child? h); atEdge e n
    | none => nestedBlock l
  | singleChild n => atEdge e n
  | n => n

/-- A node that is no wrapper and no group with children has margins unless it is a span or an empty group. -/
def isSpaced : Node → Bool
  | nestedBlock [] => false
  | n => !n.isInline

theorem atEdge_singleChild (e : Edge) (n : Node) : (singleChild n).atEdge e = n.atEdge e := by
  rw [atEdge]

theorem atEdge_nestedBlock (e : Edge) (l : List Node) :
    (nestedBlock l).atEdge e = ((e.child? l).map (atEdge e)).getD (nestedBlock []) := by
  rw [atEdge]
  split
  · rename_i n h
    simp only [h, Option.map_some, Option.getD_some]
  · rename_i h
    rw [h, Edge.child?_eq_none.1 h]
    rfl

theorem margin_nestedBlock (e : Edge) (l : List Node) :
    e.margin (nestedBlock l).margins = (e.child? l).any fun n => e.margin n.margins := by
  rw [margins]
  split
  · rename_i h
    rw [isInParagraph_eq_isInline] at h
    -- all children are inline, so the one at the edge has no margins either
    cases hc : e.child? l with
    | none => cases e <;> rfl
    | some n =>
      have hn : n.isInParagraph = true := by
        rw [isInParagraph_eq_isInline]
        exact isInline_of_mem h (Edge.mem_of_child? hc)
      rw [Option.any_some, margins_of_isInParagraph hn]
  · cases e with
    | top =>
      show (firstMargins l).top = l.head?.any _
      rw [firstMargins_eq, List.head?_map]
      cases l.head? <;> rfl
    | bottom =>
      show (lastMargins l).bottom = l.getLast?.any _
      rw [lastMargins_eq, List.getLast?_map]
      cases l.getLast? <;> rfl

theorem margin_of_isInParagraph_eq {e : Edge} {n : Node} (h : n.margins = if n.isInParagraph then .none else .both) :
    e.margin n.margins = !n.isInline := by
  rw [h, isInParagraph_eq_isInline]
  cases n.isInline <;> cases e <;> rfl

theorem margin_eq (e : Edge) (n : Node) : e.margin n.margins = (n.atEdge e).isSpaced := by
  induction n using Node.induction with
  | step n ih =>
    cases n with
    | singleChild c =>
      rw [margins_singleChild, atEdge_singleChild]
      exact ih c (List.mem_singleton_self c)
    | nestedBlock l =>
      rw [margin_nestedBlock, atEdge_nestedBlock]
      cases h : e.child? l with
      | none => rfl
      | some c => exact ih c (Edge.mem_of_child? h)
    | _ =>
      simp only [atEdge]
      exact margin_of_isInParagraph_eq rfl

/-- A group has the top margin of its first child and the bottom margin of its last one, and none without children, and
a wrapper has the margins of its child, whether they are inline or not. So the margins are told by the nodes at the two
edges: a span or an empty group there has none, and any other node has one. -/
theorem margins_edges (n : Node) :
    (∀ l, (nestedBlock l).margins =
      ⟨l.head?.any fun c => c.margins.top, l.getLast?.any fun c => c.margins.bottom⟩) ∧
      (singleChild n).margins = n.margins ∧
      n.margins = ⟨(n.atEdge .top).isSpaced, (n.atEdge .bottom).isSpaced⟩ := by
  refine ⟨fun l => ?_, margins_singleChild n, ?_⟩
  · refine Edge.margins_ext fun e => (margin_nestedBlock e l).trans ?_
    cases e <;> rfl
  · refine Edge.margins_ext fun e => (margin_eq e n).trans ?_
    cases e <;> rfl

/-- Spans at both edges leave a group without margins, although it is not inline. -/
example : (nestedBlock [.text "a", singleChild (nestedBlock [.paragraph [], .text "b"])]).margins = .none := rfl

end Node

end XamlDoc
