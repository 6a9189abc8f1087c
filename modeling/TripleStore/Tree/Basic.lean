import TripleStore.Adjacency
import TripleStore.Runs

/-!
# Trees of triples

Triples in layout order are stored as two adjacency lists. The first maps each
major id to its middle ids; each entry is one occurrence of a middle id. The
second maps each occurrence, numbered from 1, to its minor ids; each entry is
one triple.

(1,1,1) (1,1,2) (1,2,1) (2,1,1) middles [1 2] [1] minors [1 2] [1] [1]
-/

namespace TripleStore

structure Tree where
  order : Order
  middles : Adjacency
  minors : Adjacency
  maxMiddle : Id
  maxMinor : Id

namespace Tree

/-! ## Building -/

/-- What forbids `t` to stand behind `last`, the coordinates of the triple
before it. -/
def fault? (order : Order) (last : Option Coords) (t : Triple) :
    Option BuildFault :=
  let c := order.toCoords t
  if c.hasZero then some (.zeroId t)
  else match last with
    | none => if c.major = 1 then none else some (.firstMajor c.major)
    | some l =>
      if c.major ≠ l.major then
        if c.major < l.major then some (.outOfOrder t order)
        else if c.major = l.major + 1 then none
        else some (.majorGap l.major c.major)
      else if c.middle ≠ l.middle then
        if c.middle < l.middle then some (.outOfOrder t order) else none
      else
        if c.minor < l.minor then some (.outOfOrder t order) else none

/-- Checks that the triples ascend without a gap in the major ids, which start
at 1. -/
def check (order : Order) (last : Option Coords) :
    List Triple → Except Error Unit
  | [] => .ok ()
  | t :: ts =>
    match fault? order last t with
    | some fault => .error (.construction fault)
    | none => check order (some (order.toCoords t)) ts

/-- Values with the bits that end their lists. -/
def level (bits : List Bool) (values : List UInt64) :
    Except Error Adjacency := do
  let bitmap ← Bitmap.ofBits bits
  (Adjacency.ofParts bitmap (.ofList values)).mapError .construction

/-- What one occurrence of a middle id is known by. -/
def occurrence (c : Coords) : Id × Id := (c.major, c.middle)

/-- The tree of triples that ascend in `order`. A triple that comes twice is
kept twice. -/
def build (order : Order) (triples : List Triple) : Except Error Tree := do
  check order none triples
  let coords := triples.map order.toCoords
  let occurrences := Runs.lasts occurrence coords
  let middles ← level (Runs.ends Coords.major occurrences)
      (occurrences.map Coords.middle)
  let minors ← level (Runs.ends occurrence coords) (coords.map Coords.minor)
  return {
    order, middles, minors
    maxMiddle := Sequence.maximum (occurrences.map Coords.middle)
    maxMinor := Sequence.maximum (coords.map Coords.minor) }

/-! ## Queries -/

/-- The number of triples. -/
def size (t : Tree) : Nat := t.minors.size

def isEmpty (t : Tree) : Bool := t.minors.isEmpty

/-- The largest major id. -/
def majors (t : Tree) : Nat := t.middles.keys

/-- The coordinates of the triple at position `i`, for a position that there is. -/
def coords (t : Tree) (i : Nat) : Coords :=
  let j := t.minors.key i - 1
  ⟨(t.middles.key j).toUInt64, t.middles.value j, t.minors.value i⟩

def tripleAt (t : Tree) (i : Nat) : Except Error Triple :=
  if i < t.size then
    .ok (t.order.ofCoords (t.coords i)) else .error (.outOfRange i t.size)

/-- All triples by position. -/
def toList (t : Tree) : List Triple :=
  (List.range t.size).map fun i => t.order.ofCoords (t.coords i)

/-- No triple can match a pattern that asks for an id above the largest. -/
def outOfReach (t : Tree) (pattern : Coords) : Bool :=
  t.majors < pattern.major.toNat || t.maxMiddle < pattern.middle ||
    t.maxMinor < pattern.minor

/-- The bytes that the words of both lists take on the heap. -/
def heapBytes (t : Tree) : Nat := t.middles.heapBytes + t.minors.heapBytes

end Tree

end TripleStore
