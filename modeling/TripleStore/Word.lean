import TripleStore.Capacity

/-!
# Bits of a word

Bit 0 is the lowest. Counting is by recursion on the position, and selecting is
its inverse: `select w k` is where the set bit stands that has `k` set bits
below it.
-/

namespace TripleStore.Word

/-- Bits of a word. -/
def width : Nat := 64

def bit (w : UInt64) (i : Nat) : Bool := w.toBitVec.getLsbD i

/-- The lowest `n` bits, and 0 above. -/
def low (w : UInt64) (n : Nat) : UInt64 :=
  if width ≤ n then w else (w.toNat % capacity n).toUInt64

/-- The word with only bit `i` set. -/
def single (i : Nat) : UInt64 := (capacity i).toUInt64

/-- The set bits among the lowest `n`. -/
def onesBelow (w : UInt64) : Nat → Nat
  | 0 => 0
  | n + 1 => onesBelow w n + (bit w n).toNat

def ones (w : UInt64) : Nat := onesBelow w width

/-- Looks for the set bit number `k` among the `n` bits from position `p`. -/
def selectFrom (w : UInt64) : (n p k : Nat) → Nat
  | 0, p, _ => p
  | n + 1, p, k =>
    if bit w p then
      if k = 0 then p else selectFrom w n (p + 1) (k - 1)
    else selectFrom w n (p + 1) k

def select (w : UInt64) (k : Nat) : Nat := selectFrom w width 0 k

end TripleStore.Word
