/-!
# Structured data

The values that data files hold, whatever their syntax: scalars, lists, and records with named
fields in the order in which they are written.
-/

namespace XamlDoc

inductive Data where
  | null
  | boolean (value : Bool)
  | integer (value : Int)
  | float (value : Float)
  | string (value : String)
  | list (items : List Data)
  | record (fields : List (String × Data))
  /-- Text of the right form that stands for no value, such as half of a surrogate pair. It does no
  harm where it is ignored. -/
  | unreadable

instance : Inhabited Data := ⟨.null⟩

namespace Data

mutual

/-- Number of records and lists inside one another, counting the value itself. -/
def depth : Data → Nat
  | list items => depthList items + 1
  | record fields => depthFields fields + 1
  | _ => 1

def depthList : List Data → Nat
  | [] => 0
  | d :: r => max (depth d) (depthList r)

def depthFields : List (String × Data) → Nat
  | [] => 0
  | (_, d) :: r => max (depth d) (depthFields r)

end

mutual

def isReadable : Data → Bool
  | unreadable => false
  | list items => allReadable items
  | record fields => allFieldsReadable fields
  | _ => true

def allReadable : List Data → Bool
  | [] => true
  | d :: r => isReadable d && allReadable r

def allFieldsReadable : List (String × Data) → Bool
  | [] => true
  | (_, d) :: r => isReadable d && allFieldsReadable r

end

end Data

end XamlDoc
