import TripleStore.Error

/-!
# Reading orders

The layout order that a name or a tag stands for.
-/

namespace TripleStore.Order

def parse (name : String) : Except Error Order :=
  match ofName? name with
  | some order => .ok order
  | none => .error (.invalidEncoding (.unknownOrder name))

def parseTag (tag : UInt8) : Except Error Order :=
  match ofTag? tag with
  | some order => .ok order
  | none => .error (.invalidEncoding (.unknownOrderTag tag))

end TripleStore.Order
