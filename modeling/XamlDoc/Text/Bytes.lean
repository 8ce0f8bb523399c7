/-!
# Text as bytes

The UTF-8 form of text, as a list of bytes.
-/

namespace XamlDoc.Text

def toBytes (s : String) : List UInt8 := s.toUTF8.toList

def ofBytes? (bytes : List UInt8) : Option String := String.fromUTF8? ⟨bytes.toArray⟩

end XamlDoc.Text
