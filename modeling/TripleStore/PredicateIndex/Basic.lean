import TripleStore.Tree.Basic

/-!
# Predicate indexes

The middle ids of a tree turned round: for each middle id, in ascending order,
the positions at which it occurs. An index can only be built if every middle id
from 1 up to the largest occurs.
-/

namespace TripleStore

structure PredicateIndex where
  positions : Adjacency

namespace PredicateIndex

/-! ## Building -/

/-- The middle id at position `i` is not one of 1, …, `predicates`. -/
def isForeign (t : Tree) (predicates i : Nat) : Bool :=
  t.middles.value i = 0 || predicates < (t.middles.value i).toNat

/-- The positions of each middle id; the list for id `p` is number `p - 1`. -/
def groups (t : Tree) (predicates : Nat) : Array (List UInt64) :=
  (List.range t.middles.size).foldr
    (fun i groups => groups.modify ((t.middles.value i).toNat - 1)
      (i.toUInt64 :: ·))
    (Array.replicate predicates [])

def build (t : Tree) : Except Error PredicateIndex :=
  let predicates := t.maxMiddle.toNat
  let occurrences := t.middles.size
  if occurrences < predicates then
    .error (.construction (.tooManyPredicates predicates occurrences))
  else match (List.range occurrences).find? (isForeign t predicates) with
    | some i =>
      .error (.construction
        (.foreignPredicate (t.middles.value i) i predicates))
    | none =>
      let groups := groups t predicates
      match groups.findIdx? List.isEmpty with
      | some i => .error (.construction (.absentPredicate (i + 1)))
      | none => return ⟨← Adjacency.build groups.toList⟩

/-! ## Queries -/

def predicates (x : PredicateIndex) : Nat := x.positions.keys

def size (x : PredicateIndex) : Nat := x.positions.size

def isEmpty (x : PredicateIndex) : Bool := x.positions.isEmpty

/-- The slots of a middle id. -/
def occurrences (x : PredicateIndex) (p : Nat) : Except Error Span :=
  x.positions.span p

/-- The slots of a middle id that there is. -/
def slots (x : PredicateIndex) (p : Nat) : Span := x.positions.keySpan p

def position (x : PredicateIndex) (slot : Nat) : Except Error Nat :=
  return (← x.positions.valueAt slot).toNat

/-- The position in a slot that there is. -/
def slotValue (x : PredicateIndex) (slot : Nat) : Nat :=
  (x.positions.value slot).toNat

/-- The positions of each middle id. -/
def toLists (x : PredicateIndex) : List (List Nat) :=
  (List.range x.predicates).map fun p =>
    (x.slots (p + 1)).toList.map x.slotValue

/-- The tree does not hold the id `entry.1` at the position that the index lists
for it. -/
def isStale (t : Tree) (entry : Nat × UInt64) : Bool :=
  t.middles.size ≤ entry.2.toNat ||
    (t.middles.value entry.2.toNat).toNat ≠ entry.1

/-- What keeps an index from being one of this tree. -/
def conflict? (x : PredicateIndex) (t : Tree) : Option ArgumentFault :=
  if x.predicates ≠ t.maxMiddle.toNat ∨ x.size ≠ t.middles.size then
    some (.indexShape x.predicates x.size t.maxMiddle t.middles.size)
  else
    (x.positions.toList.find? (isStale t)).map fun entry =>
      .staleOccurrence entry.1 entry.2

instance : BEq PredicateIndex where
  beq a b := a.positions == b.positions

def describe (x : PredicateIndex) : String :=
  Text.record "PredicateIndex" [("positions", x.positions.describe)]

end PredicateIndex

end TripleStore
