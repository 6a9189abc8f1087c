import TripleStore.Bytes.Emit
import TripleStore.Bytes.Scan

/-!
# Variable-length numbers

A number is written in groups of seven bits, the lowest group first, one group a
byte. The high bit marks the last byte. Reading is bounded by a width in bits: a
group that would reach past the width is refused, also when it is zero and lies
wholly beyond.
-/

namespace TripleStore.Vbyte

def encode (n : Nat) : Bytes :=
  if n < 128 then [(128 + n).toUInt8] else (n % 128).toUInt8 :: encode (n / 128)

/-- Appends a number to `out`; a negative one is refused. -/
def encodeSigned (out : Bytes) (n : Int) : Except Error Bytes :=
  if n < 0 then
    .error (.invalidArgument (.negative n)) else .ok (out ++ encode n.toNat)

/-- Writes a number and returns how many bytes it takes. -/
def write (n : Nat) : Emit Nat := do
  Emit.writeAll (encode n)
  return (encode n).length

def group (b : UInt8) : Nat := b.toNat % 128

def isLast (b : UInt8) : Bool := 128 ≤ b.toNat

/-- The groups read so far and where the next one goes. -/
structure Partial where
  value : Nat
  shift : Nat

namespace Partial

def empty : Partial := ⟨0, 0⟩

def push (bits : Nat) (p : Partial) (b : UInt8) : Except Error Partial :=
  if bits ≤ p.shift ∨ capacity bits ≤ group b * capacity p.shift then
    .error (.invalidEncoding (.vbyteOverflow bits))
  else
    .ok ⟨p.value + group b * capacity p.shift, p.shift + 7⟩

theorem shift_lt_of_push {bits : Nat} {p q : Partial} {b : UInt8}
    (h : p.push bits b = .ok q) :
    p.shift < bits ∧ q.shift = p.shift + 7 := by
  unfold push at h
  split at h
  · cases h
  · next hfit =>
    cases h
    exact ⟨by omega, rfl⟩

end Partial

/-- Decodes on from `p`; `used` counts the bytes taken before. -/
def decodeFrom (bits : Nat) (p : Partial) (used : Nat) :
    Bytes → Except Error (Nat × Nat)
  | [] => .error .endOfStream
  | b :: bs => do
    let q ← p.push bits b
    if isLast b then
      return (q.value, used + 1) else decodeFrom bits q (used + 1) bs

/-- The number at the front of `bytes`, below `capacity bits`, and the bytes it
takes. -/
def decode (bits : Nat) (bytes : Bytes) : Except Error (Nat × Nat) :=
  decodeFrom bits .empty 0 bytes

def readFrom (bits : Nat) (p : Partial) : Scan Nat := do
  let b ← Scan.byte
  match _h : p.push bits b with
  | .error e => throw e
  | .ok q => if isLast b then return q.value else readFrom bits q
termination_by bits - p.shift
decreasing_by
  have := Partial.shift_lt_of_push _h
  omega

/-- Reads one number below `capacity bits`. -/
def read (bits : Nat) : Scan Nat := readFrom bits .empty

end TripleStore.Vbyte
