import XamlDoc.Text.Bytes
import XamlDoc.Text.Split

/-!
# File trees

The files and directories below a root, and where a path leads in them. A path goes one name at a time;
every place that it goes on from must be a directory. What lies outside the tree cannot be seen.
-/

namespace XamlDoc

inductive FileEntry where
  | file (bytes : List UInt8)
  | directory
  deriving DecidableEq

/-- Entries by the names that lead to them from the root. The first entry of a place counts. -/
structure FileTree where
  entries : List (List String × FileEntry)

inductive Place where
  | inside (names : List String)
  | outside
  deriving DecidableEq

namespace FileTree

def empty : FileTree := ⟨[]⟩

/-- What stands at a place of the tree. The root is always there. -/
def entry? (t : FileTree) : List String → Option FileEntry
  | [] => some .directory
  | names => t.entries.lookup names

def put (t : FileTree) (names : List String) (e : FileEntry) : FileTree :=
  ⟨(names, e) :: t.entries⟩

def seen? (t : FileTree) : Place → Option FileEntry
  | .inside names => t.entry? names
  | .outside => some .directory

def parent : Place → Place
  | .outside | .inside [] => .outside
  | .inside names => .inside names.dropLast

def step? (t : FileTree) (p : Place) (name : String) : Option Place :=
  if t.seen? p ≠ some .directory then none
  else if name = "" || name = "." then some p
  else if name = ".." then some (parent p)
  else match p with
    | .outside => none
    | .inside names => (t.entry? (names ++ [name])).map fun _ => .inside (names ++ [name])

def walk? (t : FileTree) (p : Place) : List String → Option Place
  | [] => some p
  | name :: r => (t.step? p name).bind fun p => t.walk? p r

/-- The names of a path, and the place that they lead from. -/
def names (cwd : List String) (path : String) : Place × List String :=
  match (Text.splitAt '/' path.toList).map String.ofList with
  | "" :: r => (.outside, r)
  | parts => (.inside cwd, parts)

/-- Where a path leads from the directory `cwd`, if there is something. -/
def locate? (t : FileTree) (cwd : List String) (path : String) : Option Place :=
  if path = "" then none
  else
    let (start, parts) := names cwd path
    t.walk? start parts

def read? (t : FileTree) (cwd : List String) (path : String) : Option (List UInt8) :=
  match (t.locate? cwd path).bind t.seen? with
  | some (.file bytes) => some bytes
  | _ => none

def isName (s : String) : Bool := s ≠ "" && s ≠ "." && s ≠ ".."

/-- The place of the file that writing to a path would make or replace. -/
def target? (t : FileTree) (cwd : List String) (path : String) : Option (List String) :=
  let (start, parts) := names cwd path
  match parts.getLast?, t.walk? start parts.dropLast with
  | some name, some (.inside around) =>
    let target := around ++ [name]
    if isName name && t.entry? around = some .directory && t.entry? target ≠ some .directory then
      some target
    else none
  | _, _ => none

def makeDirectories (t : FileTree) : List String → List String → FileTree × List String
  | here, [] => (t, here)
  | here, name :: r =>
    if name = "" || name = "." then t.makeDirectories here r
    else if name = ".." then t.makeDirectories here.dropLast r
    else
      let next := here ++ [name]
      let t := if (t.entry? next).isSome then t else t.put next .directory
      t.makeDirectories next r

/-- Put a file at a path from the root, with the directories around it. -/
def withFile (t : FileTree) (path : String) (bytes : List UInt8) : FileTree :=
  let parts := (Text.splitAt '/' path.toList).map String.ofList
  let (t, around) := t.makeDirectories [] parts.dropLast
  t.put (around ++ [parts.getLastD ""]) (.file bytes)

end FileTree

end XamlDoc
