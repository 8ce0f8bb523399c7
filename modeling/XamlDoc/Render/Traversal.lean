import XamlDoc.Footnote.Numbering
import XamlDoc.Markup.Call

/-!
# Traversal of a document

What the ways of going through a document have in common: the state they hand on, and the errors
that end them. A rendering is cancelled at the next node after its token has fired. The token may be
fired by an extension, or from outside at any moment; between two visits of nodes nobody looks at it, so a
moment from outside is told by the number of visits before it.
-/

namespace XamlDoc

inductive RenderError where
  | write (e : Markup.WriteError)
  | cancelled
  /-- A bound of the machine is met: documents returned by scripts are nested deeper than allowed, or a list does not
  fit into the memory. -/
  | tooDeep
  deriving DecidableEq, Repr

def RenderError.message : RenderError → String
  | .write e => "output error: " ++ e.message
  | .cancelled => "rendering cancelled"
  | .tooDeep => "a bound of the machine is met"

/-- Why a traversal ends before the end of its document, although all could be written. -/
inductive Halt where
  | cancelled
  | tooDeep
  deriving DecidableEq, Repr

def Halt.error : Halt → RenderError
  | .cancelled => .cancelled
  | .tooDeep => .tooDeep

/-- At which of the nodes that are reached the token is looked at. -/
inductive Watch where
  | always
  | never
  /-- At one node, after so many others. -/
  | once (others : Nat)
  deriving DecidableEq, Repr

namespace Watch

/-- The token is looked at before the next node. -/
def looks : Watch → Bool
  | .always | .once 0 => true
  | .never | .once (_ + 1) => false

/-- After the next node. -/
def next : Watch → Watch
  | .once 0 => .never
  | .once (n + 1) => .once n
  | w => w

end Watch

structure Traversal where
  numbering : Numbering
  /-- The token has fired. -/
  cancelled : Bool
  /-- Number of visits until the token is fired from outside; `none` is never. -/
  fuse? : Option Nat
  watch : Watch

namespace Traversal

/-- The state at the beginning of a document whose token is fired from outside after `fuse?` visits. -/
def watching (watch : Watch) (fuse? : Option Nat) : Traversal := ⟨∅, false, fuse?, watch⟩

def start (fuse? : Option Nat) : Traversal := watching .always fuse?

def burn (t : Traversal) : Traversal :=
  match t.fuse? with
  | none => t
  | some 0 => { t with cancelled := true }
  | some (n + 1) => { t with fuse? := some n }

/-- A node is reached. -/
def tick (t : Traversal) : Traversal := { t.burn with watch := t.watch.next }

/-- The token is looked at before the node that is reached, and has fired. -/
def stops (t : Traversal) : Bool := t.watch.looks && t.burn.cancelled

theorem numbering_tick (t : Traversal) : t.tick.numbering = t.numbering := by
  show t.burn.numbering = t.numbering
  rw [burn]
  split <;> rfl

def cancelIf (t : Traversal) (cancels : Bool) : Traversal := { t with cancelled := t.cancelled || cancels }

/-- The number of a key, given to it now if it has none. -/
def reference (t : Traversal) (key : String) : Nat × Traversal :=
  let (number, numbering) := t.numbering.reference key
  (number, { t with numbering })

end Traversal

end XamlDoc
