/-!
# Memory

A list whose length is known beforehand is reserved as a whole before it is filled. The process ends at once where a
reservation does not fit into the memory.
-/

namespace XamlDoc

class Memory where
  /-- So many bytes can be reserved as one piece. -/
  fits : Nat → Bool

namespace Memory

/-- The memory that nothing is too large for, unless another is named. -/
instance unlimited : Memory := ⟨fun _ => true⟩

/-- The number of bytes that signed addresses of 64 bits reach. -/
def reach : Nat := Nat.pow 2 63

/-- As much memory as there are addresses for. -/
abbrev addressable : Memory := ⟨fun bytes => bytes < reach⟩

end Memory

end XamlDoc
