import XamlDoc.Document.Node

/-!
# Plain text

The text of some nodes without any formatting, for the descriptions of images.
-/

namespace XamlDoc.Node

def ownText : Node → String
  | text t | inlineCode t | hashTag t | autoLinkUrl t | autoLinkMail t => t
  | emoji e => e.unicode
  | lineBreak => " "
  | _ => ""

def plainText (nodes : List Node) : String := String.join ((walkAll nodes).map ownText)

end XamlDoc.Node
