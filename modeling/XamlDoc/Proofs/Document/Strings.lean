import XamlDoc.Dialect.Profile
import XamlDoc.Document.Basic
import XamlDoc.Proofs.Document.Induction
import XamlDoc.Proofs.Footnote.Basic

/-!
# Strings of documents

The strings that stand in a document and in a profile, and the codes of its numeric entities. A document comes with
a detail document, which may have one of its own.
-/

namespace XamlDoc

def MediaItem.strings (m : MediaItem) : List String := m.url :: (m.title.toList ++ m.contentType.toList)

namespace Node

/-- The strings of the node itself. -/
def strings : Node → List String
  | text t | inlineCode t | hashTag t | autoLinkUrl t | autoLinkMail t | inlineHtml t | htmlEntity t
  | link t _ | linkReference t _ | abbreviation t _ | footnoteReference t _ | metaReference t
  | multimediaReference t _ _ | inlineScript t _ => [t]
  | emoji e => [e.shortName, e.unicode]
  | multimedia items _ _ => items.flatMap MediaItem.strings
  | table t => t.caption.toList ++ t.id.toList
  | codeBlock b => b.rows ++ b.language.toList
  | commentBlock lines => lines
  | _ => []

/-- The property holds of the node and of all nodes in it. -/
def Throughout (A : Node → Prop) (n : Node) : Prop := ∀ m ∈ n.walk, A m

theorem throughout_true (n : Node) : n.Throughout fun _ => True := fun _ _ => trivial

section

variable {A : Node → Prop} {n : Node} (h : n.Throughout A)
include h

theorem Throughout.self : A n := h n n.self_mem_walk

theorem Throughout.child {m : Node} (hm : m ∈ n.children) : m.Throughout A := fun k hk => h k (mem_walk_of_child hm hk)

end

/-- The code of a numeric entity. -/
def code? : Node → Option UInt32
  | htmlEntityUnicode code => some code
  | _ => none

end Node

namespace Document

/-- The nodes of the document itself and of its footnotes. -/
def allNodes (d : Document) : List Node :=
  Node.walkAll d.nodes ++ d.footnotes.entries.flatMap fun f => Node.walkAll f.content

/-- The document, its detail document, and so on. -/
def layers : Document → List Document
  | ⟨nodes, footnotes, references, none, metadata⟩ => [⟨nodes, footnotes, references, none, metadata⟩]
  | ⟨nodes, footnotes, references, some detail, metadata⟩ =>
    ⟨nodes, footnotes, references, some detail, metadata⟩ :: layers detail

theorem mem_layers (d : Document) : d ∈ d.layers := by
  obtain ⟨nodes, footnotes, references, _ | detail, metadata⟩ := d <;> exact List.mem_cons_self ..

/-- The property holds of all nodes of the document and of its detail documents. -/
def Throughout (A : Node → Prop) (d : Document) : Prop := ∀ e ∈ d.layers, ∀ n ∈ e.allNodes, A n

theorem throughout_true (d : Document) : d.Throughout fun _ => True := fun _ _ _ _ => trivial

namespace Throughout

variable {A : Node → Prop} {d : Document} (h : d.Throughout A)
include h

theorem allNodes {l : List Node} (hl : ∀ n ∈ Node.walkAll l, n ∈ d.allNodes) : ∀ n ∈ l, n.Throughout A :=
  fun _ hn m hm => h d d.mem_layers m (hl m (Node.mem_walkAll_of_mem hn hm))

theorem nodes : ∀ n ∈ d.nodes, n.Throughout A := h.allNodes fun _ => List.mem_append_left _

theorem footnote {key : String} {f : Footnote} (hf : d.footnotes.get? key = some f) :
    ∀ n ∈ f.content, n.Throughout A := by
  refine h.allNodes fun n hn => List.mem_append_right _ (List.mem_flatMap.2 ⟨f, ?_, hn⟩)
  exact Footnotes.mem_of_get? hf

omit h in
theorem detail {nodes : List Node} {footnotes : Footnotes} {references : Directory MediaItem} {detail : Document}
    {metadata : Metadata} (h : Throughout A ⟨nodes, footnotes, references, some detail, metadata⟩) :
    detail.Throughout A := fun e he => by
  refine h e ?_
  rw [layers]
  exact List.mem_cons_of_mem _ he

end Throughout

def strings (d : Document) : List String := d.layers.flatMap fun e =>
  e.allNodes.flatMap Node.strings ++ e.footnotes.keys
    ++ e.references.entries.flatMap (fun r => r.1 :: r.2.strings)
    ++ e.metadata.values.entries.flatMap fun v => v.1 :: v.2

def codes (d : Document) : List UInt32 := d.layers.flatMap fun e => e.allNodes.filterMap Node.code?

end Document

def Profile.strings (p : Profile) : List String :=
  p.headerColor ++ p.tableRowBackgroundColors
    ++ [p.tableCellBorderColor, p.blockQuoteBorderColor, p.insertedBorderColor, p.deletedBorderColor,
      p.codeFontFamily, p.hyperlinkColor, p.hyperlinkCommand, p.ruleColor, p.errorColor]

end XamlDoc
