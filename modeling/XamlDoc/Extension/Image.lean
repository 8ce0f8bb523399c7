import XamlDoc.Document.Node
import XamlDoc.Markup.Call
import XamlDoc.Text.Base64
import XamlDoc.Text.Split

/-!
# Images and content types

An image by its address, the element that shows it, and the content type of a media item: the declared
one, else the one its address tells.
-/

namespace XamlDoc

open Markup (Call)

structure Image where
  url : String
  width : Option UInt32
  height : Option UInt32
  deriving DecidableEq, Repr

namespace Image

def calls (i : Image) : List Call :=
  Call.ofTag ⟨"Image", [("Source", i.url)]
      ++ (i.width.map fun w => ("WidthRequest", toString w.toNat)).toList
      ++ (i.height.map fun h => ("HeightRequest", toString h.toNat)).toList⟩
    ++ [.close]

def pngUri (png : List UInt8) : String := "data:image/png;base64," ++ Text.Base64.encode png

end Image

namespace MediaItem

def image (m : MediaItem) : Image := ⟨m.url, m.width, m.height⟩

/-- Remove `start` from the front as often as it is there. -/
def dropStarts (start : List Char) : Nat → List Char → List Char
  | 0, s => s
  | n + 1, s => if start.isPrefixOf s then dropStarts start n (s.drop start.length) else s

def typesByExtension : List (String × String) :=
  [("png", "image/png"), ("jpg", "image/jpeg"), ("jpeg", "image/jpeg"), ("gif", "image/gif"),
    ("webp", "image/webp"), ("bmp", "image/bmp"), ("svg", "image/svg+xml"), ("mp4", "video/mp4"),
    ("webm", "video/webm"), ("mp3", "audio/mpeg"), ("wav", "audio/wav")]

/-- The content type at the front of an address that holds its data; it ends at `;` or `,`. -/
def dataType? (url : List Char) : Option String :=
  let header := dropStarts "data:".toList url.length url
  match header.span fun c => c != ';' && c != ',' with
  | (_, []) => none
  | (type, _) => some (String.ofList type).toLower

/-- The content type by the extension of the path, which ends at `?` or `#`. -/
def pathType? (url : List Char) : Option String :=
  let path := url.takeWhile fun c => c != '?' && c != '#'
  match Text.splitLast? '.' path with
  | none => none
  | some (_, fileExtension) => typesByExtension.lookup (String.ofList fileExtension).toLower

def type? (m : MediaItem) : Option String :=
  match m.contentType with
  | some declared => some declared.toLower
  | none =>
    if "data:".toList.isPrefixOf m.url.toList then dataType? m.url.toList
    else pathType? m.url.toList

end MediaItem

end XamlDoc
