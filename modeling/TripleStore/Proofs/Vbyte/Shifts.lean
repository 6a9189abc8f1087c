import Mathlib.Data.Nat.Bitwise
import TripleStore.Proofs.Bits.Word
import TripleStore.Proofs.Vbyte

/-!
# Decoding in a machine word

A number is put together in one word: a group is masked out of its byte, refused
if it reaches past the room that is left, and set in above the others by a shift
(`putGroup`). Within 64 bits nothing is shifted out, so that each turn does what
the sums of decoding say (`push_eq_putGroup`), and so does the whole run
(`decode_eq_decodeWord`).
-/

namespace TripleStore.Vbyte

/-- The word with the group of one more byte set in at `shift`. -/
def putGroup (bits shift : Nat) (value : UInt64) (b : UInt8) :
    Except Error UInt64 :=
  if bits ≤ shift then .error (.invalidEncoding (.vbyteOverflow bits))
  else
    let part := (b &&& 0x7F).toUInt64
    let room := bits - shift
    if room < 7 ∧ part >>> room.toUInt64 ≠ 0 then
      .error (.invalidEncoding (.vbyteOverflow bits))
    else .ok (value ||| part <<< shift.toUInt64)

def decodeWordFrom (bits shift : Nat) (value : UInt64) (used : Nat) :
    Bytes → Except Error (UInt64 × Nat)
  | [] => .error .endOfStream
  | b :: bs => do
    let value ← putGroup bits shift value b
    if b &&& 0x80 ≠ 0 then return (value, used + 1)
    else decodeWordFrom bits (shift + 7) value (used + 1) bs

def decodeWord (bits : Nat) (bytes : Bytes) : Except Error (UInt64 × Nat) :=
  decodeWordFrom bits 0 0 0 bytes

/-! ## Masks and shifts -/

theorem toNat_and_payload (b : UInt8) :
    (b &&& 0x7F).toUInt64.toNat = group b := by
  rw [UInt8.toNat_toUInt64, UInt8.toNat_and]
  exact Nat.and_two_pow_sub_one_eq_mod b.toNat 7

theorem isLast_eq_mark (b : UInt8) : isLast b = decide (b &&& 0x80 ≠ 0) := by
  have hmark : (b &&& 0x80).toNat = (b.toNat.testBit 7).toNat * 2 ^ 7 := by
    rw [UInt8.toNat_and]
    exact Nat.and_two_pow b.toNat 7
  have hzero : b &&& 0x80 = 0 ↔ b.toNat.testBit 7 = false := by
    rw [← UInt8.toNat_inj, hmark]
    cases b.toNat.testBit 7 <;> simp
  have hbit : b.toNat.testBit 7 = decide (128 ≤ b.toNat) := by
    have hlt := b.toNat_lt
    rw [Nat.testBit_eq_decide_div_mod_eq, decide_eq_decide]
    omega
  simp only [isLast, ← hbit, ne_eq, hzero, Bool.not_eq_false,
    Bool.decide_eq_true]

variable {bits shift : Nat}

theorem toNat_toUInt64_of_lt (hshift : shift < bits)
    (hbits : bits ≤ Word.width) :
    shift.toUInt64.toNat % 64 = shift := by
  rw [Word.width] at hbits
  rw [Nat.toUInt64, UInt64.toNat_ofNat']
  omega

theorem capacity_le_capacity {m n : Nat} (h : m ≤ n) :
    capacity m ≤ capacity n := by
  rw [capacity_eq_pow, capacity_eq_pow]
  exact Nat.pow_le_pow_right (by omega) h

/-- A group that reaches past the width leaves something behind when the room is
shifted out. -/
theorem part_shiftRight_ne_zero_iff (hshift : shift < bits) (b : UInt8) :
    (bits - shift < 7 ∧ (b &&& 0x7F).toUInt64 >>> (bits - shift).toUInt64 ≠ 0) ↔
      capacity bits ≤ group b * capacity shift := by
  have hsplit : capacity bits = capacity (bits - shift) * capacity shift := by
    rw [← capacity_add, Nat.sub_add_cancel (Nat.le_of_lt hshift)]
  rw [hsplit, Nat.mul_le_mul_right_iff (capacity_pos shift)]
  by_cases hroom : bits - shift < 7
  · have hroom' : (bits - shift).toUInt64.toNat % 64 = bits - shift :=
      toNat_toUInt64_of_lt (Nat.lt_of_lt_of_le hroom (by decide))
        (Nat.le_refl _)
    rw [and_iff_right hroom, ne_eq, ← UInt64.toNat_inj,
      UInt64.toNat_shiftRight, hroom', toNat_and_payload,
      Nat.shiftRight_eq_div_pow, capacity_eq_pow, UInt64.toNat_zero,
      Nat.div_eq_zero_iff]
    have hpos := Nat.two_pow_pos (bits - shift)
    simp only [Nat.pow_eq]
    omega
  · have hgroup : group b < capacity 7 := Nat.mod_lt _ (by decide)
    have hfits : capacity 7 ≤ capacity (bits - shift) :=
      capacity_le_capacity (by omega)
    exact iff_of_false (fun h => hroom h.1) (by omega)

/-- A group set in above a number is added to it. -/
theorem toNat_or_part (hshift : shift < bits) (hbits : bits ≤ Word.width)
    {value : UInt64} {b : UInt8} (hvalue : value.toNat < capacity shift)
    (hpart : group b * capacity shift < capacity bits) :
    (value ||| (b &&& 0x7F).toUInt64 <<< shift.toUInt64).toNat =
      value.toNat + group b * capacity shift := by
  have hword : group b * capacity shift < 2 ^ 64 :=
    Nat.lt_of_lt_of_le hpart (capacity_le_capacity hbits)
  rw [capacity_eq_pow, Nat.pow_eq] at hvalue hword ⊢
  rw [UInt64.toNat_or, UInt64.toNat_shiftLeft,
    toNat_toUInt64_of_lt hshift hbits, toNat_and_payload, Nat.shiftLeft_eq,
    Nat.mod_eq_of_lt hword, ← Nat.shiftLeft_eq, Nat.or_comm,
    ← Nat.shiftLeft_add_eq_or_of_lt hvalue, Nat.add_comm]

/-! ## Decoding -/

/-- A group is put where the sum has it, as long as the number so far lies below. -/
theorem push_eq_putGroup (hbits : bits ≤ Word.width) {value : UInt64}
    (hvalue : value.toNat < capacity shift) (b : UInt8) :
    Partial.push bits ⟨value.toNat, shift⟩ b =
      (putGroup bits shift value b).map fun value =>
        ⟨value.toNat, shift + 7⟩ := by
  unfold Partial.push putGroup
  dsimp only
  by_cases hshift : bits ≤ shift
  · rw [if_pos (.inl hshift), if_pos hshift]
    rfl
  · rw [if_neg hshift]
    have hiff := part_shiftRight_ne_zero_iff (Nat.lt_of_not_le hshift) b
    by_cases hpart : capacity bits ≤ group b * capacity shift
    · rw [if_pos (.inr hpart), if_pos (hiff.mpr hpart)]
      rfl
    · rw [if_neg (by simp [hshift, hpart]), if_neg (mt hiff.mp hpart)]
      rw [← toNat_or_part (Nat.lt_of_not_le hshift) hbits hvalue
        (Nat.lt_of_not_le hpart)]
      rfl

theorem value_lt_of_push {p q : Partial} {b : UInt8}
    (hp : p.value < capacity p.shift) (h : p.push bits b = .ok q) :
    q.value < capacity q.shift := by
  unfold Partial.push at h
  split at h
  · cases h
  · cases h
    have hgroup : group b < 128 := Nat.mod_lt _ (by decide)
    have hmul : (group b + 1) * capacity p.shift ≤ 128 * capacity p.shift :=
      Nat.mul_le_mul_right _ hgroup
    dsimp only
    rw [Nat.add_comm p.shift 7, capacity_add]
    rw [Nat.succ_mul] at hmul
    show p.value + group b * capacity p.shift < 128 * capacity p.shift
    omega

theorem decodeFrom_eq_decodeWordFrom (hbits : bits ≤ Word.width)
    {value : UInt64} (hvalue : value.toNat < capacity shift) (used : Nat)
    (bytes : Bytes) :
    decodeFrom bits ⟨value.toNat, shift⟩ used bytes =
      (decodeWordFrom bits shift value used bytes).map fun r =>
        (r.1.toNat, r.2) := by
  induction bytes generalizing value shift used with
  | nil => rfl
  | cons b bs ih =>
      have hpush := push_eq_putGroup hbits hvalue b
      rw [decodeFrom, decodeWordFrom, hpush, isLast_eq_mark]
      cases hput : putGroup bits shift value b with
      | error e => rfl
      | ok next =>
          rw [hput] at hpush
          have hnext := value_lt_of_push hvalue hpush
          simp only [Except.map, bind, Except.bind, decide_eq_true_eq]
          by_cases hlast : b &&& 0x80 ≠ 0
          · rw [if_pos hlast, if_pos hlast]
            rfl
          · rw [if_neg hlast, if_neg hlast]
            exact ih hnext (used + 1)

/-- Decoding in a word of its own is decoding by sums, for every width that a
word has room for. -/
theorem decode_eq_decodeWord (hbits : bits ≤ Word.width) (bytes : Bytes) :
    decode bits bytes = (decodeWord bits bytes).map fun r =>
      (r.1.toNat, r.2) := by
  have hzero : (0 : UInt64).toNat < capacity 0 := by decide
  exact decodeFrom_eq_decodeWordFrom hbits hzero 0 bytes

end TripleStore.Vbyte
