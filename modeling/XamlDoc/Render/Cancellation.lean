/-!
# Cancellation tokens

A token stops a rendering when it has fired, and never recovers. Tokens are told apart by their
numbers; a copy shares the switch of the token that it was made from, so they fire together.
-/

namespace XamlDoc

structure Tokens where
  switches : List Nat
  /-- The switches that have been thrown. -/
  thrown : List Nat

namespace Tokens

def empty : Tokens := ⟨[], []⟩

instance : EmptyCollection Tokens := ⟨empty⟩

def create (t : Tokens) : Tokens := { t with switches := t.switches ++ [t.switches.length] }

def copy (t : Tokens) (token : Nat) : Tokens :=
  { t with switches := t.switches ++ (t.switches[token]?).toList }

def cancel (t : Tokens) (token : Nat) : Tokens :=
  { t with thrown := (t.switches[token]?).toList ++ t.thrown }

def isCancelled (t : Tokens) (token : Nat) : Bool :=
  (t.switches[token]?).any t.thrown.contains

def states (t : Tokens) : List Bool := t.switches.map t.thrown.contains

end Tokens

end XamlDoc
