import XamlDoc.Document.Node

/-!
# Footnotes

A table of footnotes in the order of their declaration. Declaring a key again replaces the content
and keeps the place. A table may come with a key in it twice; then the first entry counts.
-/

namespace XamlDoc

structure Footnote where
  key : String
  content : List Node

structure Footnotes where
  entries : List Footnote

namespace Footnotes

def empty : Footnotes := ⟨[]⟩

instance : EmptyCollection Footnotes := ⟨empty⟩

/-- Replace the content of the first entry for `key`, or append a new entry. -/
def insertEntry (key : String) (content : List Node) : List Footnote → List Footnote
  | [] => [⟨key, content⟩]
  | f :: r => if f.key = key then ⟨f.key, content⟩ :: r else f :: insertEntry key content r

def insert (t : Footnotes) (key : String) (content : List Node) : Footnotes :=
  ⟨insertEntry key content t.entries⟩

/-- First entry for `key`. -/
def get? (t : Footnotes) (key : String) : Option Footnote := t.entries.find? fun f => f.key = key

def keys (t : Footnotes) : List String := t.entries.map Footnote.key

def size (t : Footnotes) : Nat := t.entries.length

def isEmpty (t : Footnotes) : Bool := t.entries.isEmpty

end Footnotes

end XamlDoc
