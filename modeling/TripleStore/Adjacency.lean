import TripleStore.Bitmap.Section
import TripleStore.Sequence.Section
import TripleStore.Span

/-!
# Adjacency lists

Keys count from 1, and each has a list of values that is not empty. The lists
stand one after another in a sequence, and a bitmap sets the bit of the last
value of each key: key `k` owns the positions after the one number `k - 1` up to
the one number `k`, and a position belongs to the key that is one more than the
ones before it.
-/

namespace TripleStore

structure Adjacency where
  bitmap : Bitmap
  sequence : Sequence
  sizes_eq : bitmap.size = sequence.size
  terminated : bitmap.size ≠ 0 → bitmap.bit (bitmap.size - 1) = true

namespace Adjacency

/-- Pairs a bitmap and a sequence that fit together. -/
def ofParts (bitmap : Bitmap) (sequence : Sequence) :
    Except BuildFault Adjacency :=
  if hs : bitmap.size = sequence.size then
    if ht : bitmap.size ≠ 0 → bitmap.bit (bitmap.size - 1) = true then
      .ok ⟨bitmap, sequence, hs, ht⟩
    else .error .unterminated
  else .error (.unequalParts bitmap.size sequence.size)

/-- The bits of one key's list. -/
def groupBits (group : List UInt64) : List Bool :=
  List.replicate (group.length - 1) false ++ [true]

/-- The lists of the keys 1, 2, … An empty one is refused in its turn, after too
many bits before it. -/
def build (groups : List (List UInt64)) : Except Error Adjacency :=
  match groups.findIdx? List.isEmpty with
  | some i => do
    let _ ← Bitmap.ofBits ((groups.take i).flatMap groupBits)
    throw (.construction (.emptyGroup (i + 1)))
  | none => do
    let bitmap ← Bitmap.ofBits (groups.flatMap groupBits)
    (ofParts bitmap (.ofList groups.flatten)).mapError .construction

/-! ## Queries -/

def keys (a : Adjacency) : Nat := a.bitmap.ones

def size (a : Adjacency) : Nat := a.sequence.size

def isEmpty (a : Adjacency) : Bool := a.sequence.isEmpty

def value (a : Adjacency) (i : Nat) : UInt64 := a.sequence.value i

def valueAt (a : Adjacency) (i : Nat) : Except Error UInt64 := a.sequence.get i

/-- Position `i` holds the last value of its key. -/
def isLast (a : Adjacency) (i : Nat) : Bool := a.bitmap.bit i

/-- The position after the last value of key `k`, for a key that there is. -/
def stop (a : Adjacency) (k : Nat) : Nat :=
  match a.bitmap.select1 k with
  | .ok i => i + 1
  | .error _ => a.bitmap.size + 1

/-- The positions of key `k`, for a key that there is. -/
def keySpan (a : Adjacency) (k : Nat) : Span :=
  ⟨if k = 1 then 0 else a.stop (k - 1), a.stop k⟩

def span (a : Adjacency) (k : Nat) : Except Error Span :=
  if k = 0 ∨ a.keys < k then
    .error (.outOfRange k (a.keys + 1)) else .ok (a.keySpan k)

/-- The key of position `i`, for a position that there is. -/
def key (a : Adjacency) (i : Nat) : Nat := a.bitmap.rankBefore i + 1

def keyOf (a : Adjacency) (i : Nat) : Except Error Nat :=
  if i < a.size then .ok (a.key i) else .error (.outOfRange i a.size)

/-- Halves the range from `lo` to `hi` until one position is left: the first
whose value is not less than `v`, if the values ascend. -/
def lowerBound (a : Adjacency) (lo hi : Nat) (v : UInt64) : Nat :=
  if lo < hi then
    let mid := lo + (hi - lo) / 2
    if a.value mid < v then
      lowerBound a (mid + 1) hi v else lowerBound a lo mid v
  else lo
termination_by hi - lo

/-- The position of `v` in a range, by halving. -/
def find? (a : Adjacency) (s : Span) (v : UInt64) : Option Nat :=
  let i := a.lowerBound s.start s.stop v
  if i < s.stop ∧ a.value i = v then some i else none

/-- The position of `v` in the list of key `k`. -/
def search (a : Adjacency) (k : Nat) (v : UInt64) : Except Error (Option Nat) :=
  return a.find? (← a.span k) v

/-- The pairs from position `i` on, of which there are `n`; `k` is the key of
the first. -/
def pairsFrom (a : Adjacency) (k i : Nat) : (n : Nat) → List (Nat × UInt64)
  | 0 => []
  | n + 1 =>
    (k, a.value i) :: pairsFrom a (if a.isLast i then k + 1 else k) (i + 1) n

/-- Keys and values, position by position. -/
def toList (a : Adjacency) : List (Nat × UInt64) := a.pairsFrom 1 0 a.size

/-- The bytes that the words take on the heap. -/
def heapBytes (a : Adjacency) : Nat :=
  a.bitmap.words.heapBytes + a.sequence.heapBytes

instance : BEq Adjacency where
  beq a b := a.bitmap == b.bitmap && a.sequence == b.sequence

def describe (a : Adjacency) : String :=
  Text.record "AdjacencyList"
    [("bitmap", a.bitmap.describe), ("sequence", a.sequence.describe)]

/-! ## Sections -/

/-- A bitmap section and a sequence section. -/
def write (a : Adjacency) (kind : Checksum) : Emit Unit := do
  a.bitmap.write kind
  a.sequence.write kind

def read (config : Config) : Scan Adjacency := do
  let bitmap ← Bitmap.read config
  let sequence ← Sequence.read config
  match ofParts bitmap sequence with
  | .ok a => return a
  | .error fault => throw (.invalidEncoding (.adjacency fault))

end Adjacency

end TripleStore
