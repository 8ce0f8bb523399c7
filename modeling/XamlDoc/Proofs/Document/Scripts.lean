import Mathlib.Data.List.Nodup
import Mathlib.Logic.Relation
import XamlDoc.Extension.Script
import XamlDoc.Proofs.Document.Strings

/-!
# Scripts of documents

The expressions of the scripts in a document, and those that they lead to, as an expression may stand for a document
that has scripts of its own. If only finitely many expressions stand for documents and none of them leads back to
itself, documents are nested at most as deep as there are such expressions.
-/

namespace XamlDoc

open Relation (ReflTransGen TransGen)

variable {X : Set String}

/-! ### Expressions -/

namespace Node

def script? : Node → Option String
  | inlineScript expression _ => some expression
  | _ => none

/-- The expressions at and below the node. -/
def scripts (n : Node) : List String := n.walk.filterMap script?

def ScriptsIn (X : Set String) (n : Node) : Prop := ∀ expression ∈ n.scripts, expression ∈ X

/-- The node is no script, or its expression is in the set. -/
def ScriptIn (X : Set String) (n : Node) : Prop := ∀ expression, n.script? = some expression → expression ∈ X

theorem scriptsIn_iff {n : Node} : n.ScriptsIn X ↔ n.Throughout (ScriptIn X) := by
  constructor
  · exact fun h m hm expression he => h expression (List.mem_filterMap.2 ⟨m, hm, he⟩)
  · intro h expression he
    obtain ⟨m, hm, he⟩ := List.mem_filterMap.1 he
    exact h m hm expression he

theorem throughout_scriptIn_univ (n : Node) : n.Throughout (ScriptIn Set.univ) := fun _ _ _ _ => trivial

end Node

namespace Document

/-- The expressions in the document and in its detail documents. -/
def scripts (d : Document) : List String := d.layers.flatMap fun e => e.allNodes.filterMap Node.script?

def expressions (d : Document) : Set String := {expression | expression ∈ d.scripts}

theorem throughout_scriptIn_univ (d : Document) : d.Throughout (Node.ScriptIn Set.univ) :=
  fun _ _ _ _ _ _ => trivial

theorem throughout_expressions (d : Document) : d.Throughout (Node.ScriptIn d.expressions) :=
  fun e he n hn _ hs => List.mem_flatMap.2 ⟨e, he, List.mem_filterMap.2 ⟨n, hn, hs⟩⟩

end Document

/-! ### Documents of scripts -/

namespace Evaluator

/-- The evaluator that knows the expressions of a table and no others. -/
def ofTable (table : List (String × Evaluation)) : Evaluator := fun expression =>
  (table.lookup expression).getD ⟨.error (.ofMessage ("unknown expression: " ++ expression)), false⟩

variable {evaluate : Evaluator}

/-- The first expression stands for a document in which the other one occurs. -/
def Leads (evaluate : Evaluator) (expression inner : String) : Prop :=
  ∃ d, (evaluate expression).result = .ok (.document d) ∧ inner ∈ d.scripts

/-- In documents of scripts `X`, documents of scripts are nested at most `n` deep. -/
def NestsWithin (evaluate : Evaluator) : Nat → Set String → Prop
  | 0, X => ∀ expression ∈ X, ∀ d, (evaluate expression).result ≠ .ok (.document d)
  | n + 1, X => ∀ expression ∈ X, ∀ d, (evaluate expression).result = .ok (.document d) →
    NestsWithin evaluate n d.expressions

/-- From some scripts on, no expression leads back to itself. -/
def AcyclicFrom (evaluate : Evaluator) (X : Set String) : Prop :=
  ∀ expression ∈ X, ∀ inner, ReflTransGen evaluate.Leads expression inner → ¬ TransGen evaluate.Leads inner inner

/-- Only the expressions of the table stand for documents. -/
def Tabulates (evaluate : Evaluator) (table : List String) : Prop :=
  ∀ expression d, (evaluate expression).result = .ok (.document d) → expression ∈ table

theorem tabulates_ofTable (table : List (String × Evaluation)) : (ofTable table).Tabulates (table.map Prod.fst) := by
  intro expression d h
  rw [ofTable] at h
  cases hl : table.lookup expression with
  | none =>
    rw [hl] at h
    cases h
  | some e =>
    obtain ⟨l, r, rfl, -⟩ := List.lookup_eq_some_iff.1 hl
    simp

/-- Different entries of the table that lead to all scripts in `X`, from which on no expression leads back to itself. -/
structure Chain (evaluate : Evaluator) (table chain : List String) (X : Set String) : Prop where
  nodup : chain.Nodup
  entries : chain ⊆ table
  leads {first expression : String} : first ∈ chain → expression ∈ X → TransGen evaluate.Leads first expression
  acyclic : evaluate.AcyclicFrom X

/-- An expression that stands for a document makes a chain to the scripts of that document longer. -/
theorem Chain.cons {table chain : List String} (h : evaluate.Chain table chain X) (ht : evaluate.Tabulates table)
    {expression : String} (he : expression ∈ X) {d : Document} (hd : (evaluate expression).result = .ok (.document d)) :
    evaluate.Chain table (expression :: chain) d.expressions where
  nodup := List.nodup_cons.2 ⟨fun hm => h.acyclic expression he expression .refl (h.leads hm he), h.nodup⟩
  entries := List.cons_subset.2 ⟨ht expression d hd, h.entries⟩
  leads hf hi := by
    rcases List.mem_cons.1 hf with rfl | hf
    · exact .single ⟨d, hd, hi⟩
    · exact (h.leads hf he).tail ⟨d, hd, hi⟩
  acyclic inner hi last hr := h.acyclic expression he last (hr.head ⟨d, hd, hi⟩)

/-- After a chain of entries, documents are nested at most as deep as there are other entries. -/
theorem Chain.nestsWithin {table chain : List String} (h : evaluate.Chain table chain X)
    (ht : evaluate.Tabulates table) {n : Nat} (hl : table.length ≤ n + chain.length) : evaluate.NestsWithin n X := by
  induction n generalizing X chain with
  | zero =>
    intro expression he d hd
    have hc := h.cons ht he hd
    have hlt := hc.nodup.length_le_of_subset hc.entries
    rw [List.length_cons] at hlt
    omega
  | succ n ih =>
    intro expression he d hd
    refine ih (h.cons ht he hd) ?_
    rw [List.length_cons]
    omega

theorem AcyclicFrom.nestsWithin {table : List String} (ha : evaluate.AcyclicFrom X) (ht : evaluate.Tabulates table) :
    evaluate.NestsWithin table.length X :=
  have h : evaluate.Chain table [] X := ⟨.nil, List.nil_subset _, nofun, ha⟩
  h.nestsWithin ht (Nat.le_add_right _ _)

/-- If documents are nested to a certain depth only, no expression leads back to itself. -/
theorem NestsWithin.acyclicFrom {n : Nat} (h : evaluate.NestsWithin n X) : evaluate.AcyclicFrom X := by
  intro expression he inner hr hc
  -- wherever the way to the cycle begins, it goes on into a document
  have hg : TransGen evaluate.Leads expression inner := .trans_right hr hc
  induction n generalizing X expression with
  | zero =>
    obtain ⟨_, ⟨d, hd, -⟩, -⟩ := TransGen.head'_iff.1 hg
    exact h expression he d hd
  | succ n ih =>
    obtain ⟨next, ⟨d, hd, hn⟩, hr⟩ := TransGen.head'_iff.1 hg
    exact ih (h expression he d hd) next hn hr (.trans_right hr hc)

end Evaluator

end XamlDoc
