import XamlDoc.Files.Tree

/-!
# Programs over files

A program that looks at files from a working directory, reads its standard input and makes files. It
says what it wants and goes on with the answer, so one program can be run on a file tree and on a disk.
-/

namespace XamlDoc

inductive FileName where
  | given (path : String)
  /-- By its name in the directory that many levels above the working directory. -/
  | above (levels : Nat) (name : String)
  deriving DecidableEq

inductive Access (α : Type) where
  | done (value : α)
  | askLevels (next : Nat → Access α)
  | isThere (file : FileName) (next : Bool → Access α)
  | read (file : FileName) (next : Option (List UInt8) → Access α)
  | readInput (next : List UInt8 → Access α)
  /-- Make an empty file, in place of one that is there, and say whether this worked. -/
  | create (path : String) (next : Bool → Access α)
  | write (path text : String) (next : Unit → Access α)

namespace Access

variable {α β : Type}

def bind : Access α → (α → Access β) → Access β
  | .done a, f => f a
  | .askLevels next, f => .askLevels fun n => (next n).bind f
  | .isThere file next, f => .isThere file fun b => (next b).bind f
  | .read file next, f => .read file fun bytes? => (next bytes?).bind f
  | .readInput next, f => .readInput fun bytes => (next bytes).bind f
  | .create path next, f => .create path fun b => (next b).bind f
  | .write path text next, f => .write path text fun u => (next u).bind f

instance : Monad Access where
  pure := .done
  bind := bind

end Access

/-! ### Running on a tree -/

structure Workspace where
  tree : FileTree
  cwd : List String
  input : List UInt8

namespace Workspace

/-- The names that lead to a file in a directory above the working directory. -/
def ancestor (w : Workspace) (levels : Nat) (name : String) : List String :=
  w.cwd.take (w.cwd.length - levels) ++ [name]

def seen? (w : Workspace) : FileName → Option FileEntry
  | .given path => (w.tree.locate? w.cwd path).bind w.tree.seen?
  | .above levels name => w.tree.entry? (w.ancestor levels name)

def read? (w : Workspace) (file : FileName) : Option (List UInt8) :=
  match w.seen? file with
  | some (.file bytes) => some bytes
  | _ => none

/-- Put a file at the place where a path leads, if it leads to one. -/
def store (w : Workspace) (path : String) (bytes : List UInt8) : Bool × Workspace :=
  match w.tree.target? w.cwd path with
  | none => (false, w)
  | some names => (true, { w with tree := w.tree.put names (.file bytes) })

end Workspace

def Access.run {α : Type} : Access α → Workspace → α × Workspace
  | .done a, w => (a, w)
  | .askLevels next, w => (next w.cwd.length).run w
  | .isThere file next, w => (next (w.seen? file).isSome).run w
  | .read file next, w => (next (w.read? file)).run w
  | .readInput next, w => (next w.input).run w
  | .create path next, w =>
    let (made, w) := w.store path []
    (next made).run w
  | .write path text next, w => (next ()).run (w.store path (Text.toBytes text)).2

theorem Access.run_bind {α β : Type} (m : Access α) (f : α → Access β) (w : Workspace) :
    (m.bind f).run w = (f (m.run w).1).run (m.run w).2 := by
  induction m generalizing w with
  | done a => rfl
  | askLevels next ih => simp only [bind, run, ih]
  | isThere file next ih => simp only [bind, run, ih]
  | read file next ih => simp only [bind, run, ih]
  | readInput next ih => simp only [bind, run, ih]
  | create path next ih => simp only [bind, run, ih]
  | write path text next ih => simp only [bind, run, ih]

end XamlDoc
