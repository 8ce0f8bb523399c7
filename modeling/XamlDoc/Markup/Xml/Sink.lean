/-!
# Byte sinks

Where written text ends up. A sink may have room for a limited number of bytes only: it takes the
bytes that fit and refuses the rest.
-/

namespace XamlDoc.Markup.Xml

structure Sink where
  bytes : ByteArray
  /-- Number of bytes that still fit; `none` is no limit. -/
  room? : Option Nat

namespace Sink

def unlimited : Sink := ⟨.empty, none⟩

def limited (n : Nat) : Sink := ⟨.empty, some n⟩

def full : String := "sink full"

/-- Take as much of `s` as fits, and say whether all of it did. -/
def write (k : Sink) (s : String) : Bool × Sink :=
  match k.room? with
  | none => (true, { k with bytes := k.bytes ++ s.toUTF8 })
  | some room =>
    let size := s.utf8ByteSize
    if size ≤ room then (true, ⟨k.bytes ++ s.toUTF8, some (room - size)⟩)
    else (false, ⟨k.bytes ++ s.toUTF8.extract 0 room, some 0⟩)

/-- Bytes as text. A character cut off at the end is replaced by `U+FFFD`. -/
def decode (bytes : ByteArray) : String :=
  let cut (n : Nat) : Option String := String.fromUTF8? (bytes.extract 0 (bytes.size - n))
  match cut 0 with
  | some s => s
  | none => (([1, 2, 3].findSome? cut).getD "") ++ "\uFFFD"

def text (k : Sink) : String := decode k.bytes

end Sink

end XamlDoc.Markup.Xml
