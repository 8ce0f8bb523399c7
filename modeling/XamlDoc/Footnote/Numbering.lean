/-!
# Numbers of footnotes

Footnotes are numbered in the order in which they are first referred to. A key keeps its number, and
no two keys share one.
-/

namespace XamlDoc

structure Numbering where
  /-- The numbered keys in order; the first has number one. -/
  keys : List String
  nodup : keys.Nodup

namespace Numbering

def empty : Numbering := ⟨[], List.nodup_nil⟩

instance : EmptyCollection Numbering := ⟨empty⟩

def isEmpty (n : Numbering) : Bool := n.keys.isEmpty

def number? (n : Numbering) (key : String) : Option Nat := (n.keys.idxOf? key).map (· + 1)

theorem nodup_append_singleton {key : String} {keys : List String} (h : keys.Nodup)
    (hk : key ∉ keys) : (keys ++ [key]).Nodup := by
  rw [List.nodup_append]
  refine ⟨h, by simp, fun a ha b hb => ?_⟩
  rw [List.mem_singleton.1 hb]
  exact fun e => hk (e ▸ ha)

def add (n : Numbering) (key : String) : Numbering :=
  if h : key ∈ n.keys then n else ⟨n.keys ++ [key], nodup_append_singleton n.nodup h⟩

/-- Refer to a key: its number, which it gets now if it has none. -/
def reference (n : Numbering) (key : String) : Nat × Numbering :=
  let n := n.add key
  ((n.number? key).getD n.keys.length, n)

end Numbering

end XamlDoc
