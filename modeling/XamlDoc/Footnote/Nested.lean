import XamlDoc.Document.Basic
import XamlDoc.Footnote.Numbering

/-!
# Footnotes in footnotes

Before the footnotes of a document are written, the ones referred to from their contents are
numbered as well, and those from theirs. A reference that expands in place is looked through instead,
except to a footnote that has been looked through already.
-/

namespace XamlDoc

structure FootnoteLink where
  key : String
  autoExpand : Bool
  deriving DecidableEq, Repr

def Node.footnoteLink? : Node → Option FootnoteLink
  | .footnoteReference key autoExpand => some ⟨key, autoExpand⟩
  | _ => none

/-- The references at and below some nodes, in document order. -/
def Node.footnoteLinks (nodes : List Node) : List FootnoteLink :=
  (walkAll nodes).filterMap footnoteLink?

namespace Footnotes

structure Scan where
  expanded : List String
  numbering : Numbering

/-- Number the targets of links. Each level of expansion looks through a footnote that was not
looked through before, so there are at most as many levels as footnotes. -/
def scan (t : Footnotes) : Nat → List FootnoteLink → Scan → Scan
  | 0, links, s =>
    links.foldl (fun s link =>
      match t.get? link.key with
      | none => s
      | some _ => { s with numbering := s.numbering.add link.key }) s
  | n + 1, links, s =>
    links.foldl (fun s link =>
      match t.get? link.key with
      | none => s
      | some f =>
        if link.autoExpand && !s.expanded.contains link.key then
          scan t n (Node.footnoteLinks f.content) { s with expanded := link.key :: s.expanded }
        else { s with numbering := s.numbering.add link.key }) s

def numberContent (t : Footnotes) (key : String) (numbering : Numbering) : Numbering :=
  match t.get? key with
  | none => numbering
  | some f => (scan t t.size (Node.footnoteLinks f.content) ⟨[key], numbering⟩).numbering

/-- Go through the numbered footnotes from the one at `index` on, at most `steps` of them. -/
def numberFrom (t : Footnotes) : Nat → Nat → Numbering → Numbering
  | 0, _, numbering => numbering
  | steps + 1, index, numbering =>
    match numbering.keys[index]? with
    | none => numbering
    | some key => numberFrom t steps (index + 1) (t.numberContent key numbering)

/-- Number all footnotes referred to from numbered ones. Only declared footnotes are added, so the
steps are enough. -/
def numberNested (t : Footnotes) (numbering : Numbering) : Numbering :=
  numberFrom t (numbering.keys.length + t.size) 0 numbering

end Footnotes

end XamlDoc
