import TripleStore.Bytes.Backing
import TripleStore.Error

/-!
# Sources

Bytes behind a device that is read from front to back. One call yields some of
the bytes asked for, and how many is the device's choice. A call that yields
none says that the end is reached, and a device may say so while bytes are left.
After the last byte it either says so or fails.
-/

namespace TripleStore

inductive Ending where
  | endOfFile | failure
deriving DecidableEq

structure Source where
  backing : Backing
  position : Nat
  /-- The most bytes that one call yields at a position. -/
  burst : Nat → Nat
  ending : Ending

namespace Source

/-- A source that yields whatever is asked for. -/
def ofBacking (backing : Backing) : Source :=
  ⟨backing, 0, fun _ => backing.size, .endOfFile⟩

def ofBytes (bytes : Bytes) : Source := ofBacking (.ofBytes bytes)

/-- A source that yields at most `chunk` bytes a call. -/
def chunked (bytes : Bytes) (chunk : Nat) (ending : Ending) : Source :=
  ⟨.ofBytes bytes, 0, fun _ => chunk, ending⟩

/-- The bytes not read yet. -/
def rest (s : Source) : Bytes := s.backing.toBytes.drop s.position

def atEnd (s : Source) : Bool := s.backing.size ≤ s.position

def advance (s : Source) (n : Nat) : Source :=
  { s with position := s.position + n }

/-- How many of `n` bytes one call yields. -/
def grant (s : Source) (n : Nat) : Nat :=
  min (min n (s.backing.size - s.position)) (s.burst s.position)

/-- One call for at most `n` bytes. -/
def read (s : Source) (n : Nat) : Except Error (Bytes × Source) :=
  if n ≠ 0 ∧ s.atEnd ∧ s.ending = .failure then
    .error (.io .failed)
  else
    .ok (s.backing.slice s.position (s.grant n), s.advance (s.grant n))

theorem read_eq (s : Source) (n : Nat)
    (h : ¬ (n ≠ 0 ∧ s.atEnd ∧ s.ending = .failure)) :
    s.read n = .ok (s.rest.take (s.grant n), s.advance (s.grant n)) := by
  simp [read, h, rest, Backing.slice_eq]

theorem rest_advance (s : Source) (n : Nat) :
    (s.advance n).rest = s.rest.drop n := by
  simp [rest, advance]

end Source

end TripleStore
