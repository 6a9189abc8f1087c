import TripleStore.Triple

/-!
# Layout orders

An order says which component of a triple is major, middle and minor in the
stored layout. It turns triples into coordinates and back, and neither way loses
anything.
-/

namespace TripleStore

/-- A triple read in layout order. -/
structure Coords where
  major : Id
  middle : Id
  minor : Id
deriving DecidableEq

namespace Coords

def any : Coords := ⟨0, 0, 0⟩

def hasZero (c : Coords) : Bool :=
  c.major == 0 || c.middle == 0 || c.minor == 0

end Coords

/-- The six ways to lay triples out, named after their components from major to
minor. -/
inductive Order where
  | spo | sop | pso | pos | osp | ops
deriving DecidableEq

namespace Order

def all : List Order := [spo, sop, pso, pos, osp, ops]

def name : Order → String
  | spo => "SPO"
  | sop => "SOP"
  | pso => "PSO"
  | pos => "POS"
  | osp => "OSP"
  | ops => "OPS"

def tag : Order → UInt8
  | spo => 1
  | sop => 2
  | pso => 3
  | pos => 4
  | osp => 5
  | ops => 6

def ofTag? (tag : UInt8) : Option Order := all.find? (·.tag == tag)

def ofName? (name : String) : Option Order := all.find? (·.name == name)

def toCoords (order : Order) (t : Triple) : Coords :=
  match order with
  | spo => ⟨t.subject, t.predicate, t.object⟩
  | sop => ⟨t.subject, t.object, t.predicate⟩
  | pso => ⟨t.predicate, t.subject, t.object⟩
  | pos => ⟨t.predicate, t.object, t.subject⟩
  | osp => ⟨t.object, t.subject, t.predicate⟩
  | ops => ⟨t.object, t.predicate, t.subject⟩

def ofCoords (order : Order) (c : Coords) : Triple :=
  match order with
  | spo => ⟨c.major, c.middle, c.minor⟩
  | sop => ⟨c.major, c.minor, c.middle⟩
  | pso => ⟨c.middle, c.major, c.minor⟩
  | pos => ⟨c.minor, c.major, c.middle⟩
  | osp => ⟨c.middle, c.minor, c.major⟩
  | ops => ⟨c.minor, c.middle, c.major⟩

@[simp] theorem ofCoords_toCoords (order : Order) (t : Triple) :
    order.ofCoords (order.toCoords t) = t := by
  cases order <;> rfl

@[simp] theorem toCoords_ofCoords (order : Order) (c : Coords) :
    order.toCoords (order.ofCoords c) = c := by
  cases order <;> rfl

end Order

end TripleStore
