import TripleStore.Bytes.LittleEndian
import TripleStore.Text.Record

/-!
# Backings

The immutable bytes that a structure is read from, either on the heap or in a
map of a file. Structures may keep views into their backing.
-/

namespace TripleStore

inductive Residence where
  | heap | mapped
deriving DecidableEq

structure Backing where
  bytes : Array UInt8
  residence : Residence

namespace Backing

def ofBytes (bytes : Bytes) : Backing := ⟨bytes.toArray, .heap⟩

def size (b : Backing) : Nat := b.bytes.size

def isMapped (b : Backing) : Bool := b.residence == .mapped

def toBytes (b : Backing) : Bytes := b.bytes.toList

/-- At most `n` bytes from position `start`. -/
def slice (b : Backing) (start n : Nat) : Bytes :=
  (b.bytes.extract start (start + n)).toList

/-- The 64-bit word whose lowest byte is at position `start`. -/
def wordAt (b : Backing) (start : Nat) : UInt64 :=
  (LittleEndian.decode (b.slice start 8)).toUInt64

theorem slice_eq (b : Backing) (start n : Nat) :
    b.slice start n = (b.toBytes.drop start).take n := by
  simp [slice, toBytes, List.extract_eq_take_drop]

def describe (b : Backing) : String :=
  Text.record "Backing"
    [("kind", if b.isMapped then "\"Mapped\"" else "\"Heap\""),
     ("len", toString b.size)]

end Backing

end TripleStore
