import TripleStore.Capacity

/-!
# Little-endian numbers

A number in so many bytes, the lowest byte first. Writing drops what does not
fit, and reading a written number gives it back up to that.
-/

namespace TripleStore

abbrev Bytes := List UInt8

namespace LittleEndian

def encode : (width n : Nat) → Bytes
  | 0, _ => []
  | width + 1, n => n.toUInt8 :: encode width (n / 256)

def decode : Bytes → Nat
  | [] => 0
  | b :: bs => b.toNat + 256 * decode bs

@[simp] theorem length_encode (width n : Nat) :
    (encode width n).length = width := by
  induction width generalizing n with
  | zero => rfl
  | succ width ih => simp [encode, ih]

theorem decode_encode (width n : Nat) :
    decode (encode width n) = n % capacity (8 * width) := by
  induction width generalizing n with
  | zero => simp [encode, decode, Nat.mod_one]
  | succ width ih =>
    have hstep : capacity (8 * (width + 1)) = 256 * capacity (8 * width) := by
      rw [Nat.mul_succ, Nat.add_comm, capacity_add]
      rfl
    rw [encode, decode, ih, hstep, Nat.mod_mul]
    simp

end LittleEndian

end TripleStore
