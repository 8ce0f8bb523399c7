import XamlDoc.Document.Directory
import XamlDoc.Document.Footnotes
import XamlDoc.Text.Split

/-!
# Documents

A document is a sequence of nodes together with what they refer to: footnotes, link and media
targets, metadata, and a detail document.
-/

namespace XamlDoc

structure Metadata where
  bodyOnly : Bool
  values : Directory (List String)

namespace Metadata

def empty : Metadata := ⟨false, ∅⟩

def joined? (m : Metadata) (key : String) : Option String :=
  (m.values.get? key).map (Text.join ", ")

end Metadata

structure Document where
  nodes : List Node
  footnotes : Footnotes
  references : Directory MediaItem
  detail : Option Document
  metadata : Metadata

namespace Document

def ofNodes (nodes : List Node) : Document := ⟨nodes, ∅, ∅, none, .empty⟩

def withFootnote (d : Document) (key : String) (content : List Node) : Document :=
  { d with footnotes := d.footnotes.insert key content }

def withReference (d : Document) (label : String) (item : MediaItem) : Document :=
  { d with references := d.references.insert label item }

def withDetail (d detail : Document) : Document := { d with detail := some detail }

def withMeta (d : Document) (key : String) (values : List String) : Document :=
  { d with metadata := { d.metadata with values := d.metadata.values.insert key values } }

end Document

end XamlDoc
