import Mathlib.Data.Nat.Count
import TripleStore.Word

/-!
# Words as rows of bits

A word is known by its bits (`ext`), and each operation on words is known by
what it does to them. Counting and selecting are read off `countOnes`, the
number of ones below a position of a row of bits: `ones_eq_countOnes` counts,
and `select_spec` finds the one with so many ones below it.
-/

namespace TripleStore

/-- The ones below position `n` of a row of bits. -/
abbrev countOnes (bits : Nat → Bool) (n : Nat) : Nat :=
  Nat.count (fun i => bits i = true) n

theorem countOnes_succ (bits : Nat → Bool) (n : Nat) :
    countOnes bits (n + 1) = countOnes bits n + (bits n).toNat := by
  rw [countOnes, Nat.count_succ]
  cases bits n <;> rfl

theorem countOnes_le (bits : Nat → Bool) (n : Nat) : countOnes bits n ≤ n :=
  Nat.count_le _

theorem countOnes_mono (bits : Nat → Bool) {m n : Nat} (h : m ≤ n) :
    countOnes bits m ≤ countOnes bits n :=
  Nat.count_monotone _ h

theorem countOnes_congr {f g : Nat → Bool} {n : Nat} (h : ∀ i < n, f i = g i) :
    countOnes f n = countOnes g n := by
  induction n with
  | zero => rfl
  | succ n ih =>
      rw [countOnes_succ, countOnes_succ, ih fun i hi => h i (by omega),
        h n (by omega)]

/-- The ones of a longer stretch are those of its first part and those behind it. -/
theorem countOnes_add (bits : Nat → Bool) (m n : Nat) :
    countOnes bits (m + n) =
      countOnes bits m + countOnes (fun i => bits (m + i)) n :=
  Nat.count_add _ m n

/-- Two ones with equally many ones below them stand at one place. -/
theorem eq_of_countOnes_eq {bits : Nat → Bool} {m n : Nat} (hm : bits m = true)
    (hn : bits n = true) (h : countOnes bits m = countOnes bits n) : m = n :=
  Nat.count_injective hm hn h

namespace Word

@[simp] theorem bit_zero (i : Nat) : bit 0 i = false := by
  simp [bit]

theorem bit_of_width_le (w : UInt64) {i : Nat} (h : width ≤ i) :
    bit w i = false :=
  BitVec.getLsbD_of_ge _ _ h

theorem ext {v w : UInt64} (h : ∀ i < width, bit v i = bit w i) : v = w :=
  UInt64.toBitVec_inj.mp (BitVec.eq_of_getLsbD_eq h)

theorem bit_eq_testBit (w : UInt64) (i : Nat) :
    bit w i = w.toNat.testBit i := by
  rw [bit, BitVec.getLsbD, UInt64.toNat_toBitVec]

@[simp] theorem bit_or (v w : UInt64) (i : Nat) :
    bit (v ||| w) i = (bit v i || bit w i) := by
  simp [bit]

@[simp] theorem bit_and (v w : UInt64) (i : Nat) :
    bit (v &&& w) i = (bit v i && bit w i) := by
  simp [bit]

theorem bit_not (w : UInt64) (i : Nat) :
    bit (~~~w) i = (decide (i < width) && !bit w i) := by
  rw [bit, UInt64.toBitVec_not, BitVec.getLsbD_not]
  rfl

theorem bit_toUInt64 (n i : Nat) :
    bit n.toUInt64 i = (decide (i < width) && n.testBit i) := by
  rw [bit, Nat.toUInt64, UInt64.toBitVec_ofNat', BitVec.getLsbD_ofNat]
  rfl

/-- A shift by less than a word's width is not reduced. -/
theorem toNat_shift {n : Nat} (h : n < width) :
    (n.toUInt64.toBitVec % 64).toNat = n := by
  have hn : n < 64 := h
  have hword : n.toUInt64.toNat = n :=
    UInt64.toNat_ofNat_of_lt' (by rw [UInt64.size]; omega)
  rw [BitVec.toNat_umod, UInt64.toNat_toBitVec, hword]
  exact Nat.mod_eq_of_lt hn

theorem bit_shiftRight (w : UInt64) {n : Nat} (h : n < width) (i : Nat) :
    bit (w >>> n.toUInt64) i = bit w (n + i) := by
  rw [bit, UInt64.toBitVec_shiftRight, BitVec.ushiftRight_eq', toNat_shift h,
    BitVec.getLsbD_ushiftRight]
  rfl

theorem bit_shiftLeft (w : UInt64) {n : Nat} (h : n < width) (i : Nat) :
    bit (w <<< n.toUInt64) i = (decide (i < width) && !decide (i < n) &&
      bit w (i - n)) := by
  rw [bit, UInt64.toBitVec_shiftLeft, BitVec.shiftLeft_eq', toNat_shift h,
    BitVec.getLsbD_shiftLeft]
  rfl

@[simp] theorem bit_low (w : UInt64) (n i : Nat) :
    bit (low w n) i = (decide (i < n) && bit w i) := by
  unfold low
  by_cases h : width ≤ n
  · rw [if_pos h]
    by_cases hi : i < n
    · simp [hi]
    · simp [hi, bit_of_width_le w (Nat.le_trans h (Nat.le_of_not_lt hi))]
  · rw [if_neg h, bit_toUInt64, capacity_eq_pow]
    by_cases hi : i < n
    · have hw : i < width := by omega
      simp [hi, hw, bit_eq_testBit]
    · simp [hi]

theorem bit_single {n : Nat} (h : n < width) (i : Nat) :
    bit (single n) i = decide (i = n) := by
  rw [single, bit_toUInt64, capacity_eq_pow, Nat.pow_eq, Nat.testBit_two_pow]
  by_cases hi : i = n
  · simp [hi, h]
  · simp [hi, Ne.symm hi]

/-- A number below the capacity of `n` bits has no ones from bit `n` on. -/
theorem bit_of_lt_capacity {w : UInt64} {n i : Nat} (hw : w.toNat < capacity n)
    (hi : n ≤ i) :
    bit w i = false := by
  rw [bit_eq_testBit]
  rw [capacity_eq_pow] at hw
  exact Nat.testBit_lt_two_pow
    (Nat.lt_of_lt_of_le hw (Nat.pow_le_pow_right (by omega) hi))

/-! ## Counting and selecting -/

theorem onesBelow_eq_countOnes (w : UInt64) (n : Nat) :
    onesBelow w n = countOnes (bit w) n := by
  induction n with
  | zero => rfl
  | succ n ih => rw [onesBelow, countOnes_succ, ih]

theorem ones_eq_countOnes (w : UInt64) : ones w = countOnes (bit w) width :=
  onesBelow_eq_countOnes w width

/-- The scan from `p` ends at the one that has `k` ones between `p` and it. -/
theorem selectFrom_spec (w : UInt64) {n p k : Nat}
    (h : countOnes (bit w) p + k < countOnes (bit w) (p + n)) :
    bit w (selectFrom w n p k) = true ∧ selectFrom w n p k < p + n ∧
      countOnes (bit w) (selectFrom w n p k) = countOnes (bit w) p + k := by
  induction n generalizing p k with
  | zero => exact absurd h (by simp)
  | succ n ih =>
      have hp := countOnes_succ (bit w) p
      rw [← Nat.add_assoc, Nat.add_right_comm] at h
      unfold selectFrom
      by_cases hbit : bit w p = true
      · rw [if_pos hbit]
        rw [hbit] at hp
        by_cases hk : k = 0
        · rw [if_pos hk]
          exact ⟨hbit, by omega, by omega⟩
        · rw [if_neg hk]
          obtain ⟨h₁, h₂, h₃⟩ :=
            ih (p := p + 1) (k := k - 1) (by simp at hp; omega)
          refine ⟨h₁, by omega, ?_⟩
          simp at hp
          omega
      · rw [if_neg hbit]
        rw [Bool.not_eq_true] at hbit
        rw [hbit] at hp
        simp only [Bool.toNat_false, Nat.add_zero] at hp
        obtain ⟨h₁, h₂, h₃⟩ := ih (p := p + 1) (k := k) (by omega)
        exact ⟨h₁, by omega, by omega⟩

/-- A word is searched for the one that has `k` ones below it. -/
theorem select_spec {w : UInt64} {k : Nat} (h : k < ones w) :
    bit w (select w k) = true ∧ select w k < width ∧
    countOnes (bit w) (select w k) = k := by
  rw [ones_eq_countOnes] at h
  simpa [select] using selectFrom_spec w (n := width) (p := 0) (k := k)
    (by simpa using h)

/-! ## The lowest one -/

/-- Where the lowest one stands; past the end if there is none. -/
def lowest (w : UInt64) : Nat := w.toBitVec.ctz.toNat

theorem toBitVec_ne_zero {w : UInt64} (h : w ≠ 0) : w.toBitVec ≠ 0 :=
  fun hzero => h (UInt64.toBitVec_inj.mp hzero)

theorem bit_lowest {w : UInt64} (h : w ≠ 0) : bit w (lowest w) = true :=
  BitVec.getLsbD_true_ctz_of_ne_zero (toBitVec_ne_zero h)

theorem bit_of_lt_lowest {w : UInt64} {i : Nat} (h : i < lowest w) :
    bit w i = false :=
  BitVec.getLsbD_false_of_lt_ctz h

theorem countOnes_lowest (w : UInt64) : countOnes (bit w) (lowest w) = 0 := by
  rw [countOnes, Nat.count_iff_forall_not]
  intro i hi
  simp [bit_of_lt_lowest hi]

theorem ne_zero_of_lt_ones {w : UInt64} {k : Nat} (h : k < ones w) : w ≠ 0 := by
  rintro rfl
  rw [ones_eq_countOnes, countOnes_congr (fun i _ => bit_zero i),
    countOnes] at h
  simp at h

/-- With one taken away from a number, its lowest one and all below it are the
other way. -/
theorem testBit_and_pred {x p : Nat} (hp : x.testBit p = true)
    (hbelow : ∀ i < p, x.testBit i = false) (i : Nat) :
    (x &&& (x - 1)).testBit i = (x.testBit i && decide (i ≠ p)) := by
  have hmod : x % 2 ^ p = 0 := by
    apply Nat.eq_of_testBit_eq
    intro i
    rw [Nat.testBit_mod_two_pow, Nat.zero_testBit]
    by_cases hi : i < p
    · rw [hbelow i hi, Bool.and_false]
    · rw [decide_eq_false hi, Bool.false_and]
  obtain ⟨q, rfl⟩ := Nat.dvd_of_mod_eq_zero hmod
  have hodd : q.testBit 0 = true := by simpa [Nat.testBit_two_pow_mul] using hp
  obtain ⟨r, rfl⟩ : ∃ r, q = 2 * r + 1 :=
    ⟨q / 2, by rw [Nat.testBit_zero] at hodd; simp at hodd; omega⟩
  have hpos : 0 < 2 ^ p := Nat.two_pow_pos p
  have hpred : 2 ^ p * (2 * r + 1) - 1 = 2 ^ p * (2 * r) + (2 ^ p - 1) := by
    rw [Nat.mul_add, Nat.mul_one]
    omega
  rw [Nat.testBit_and, hpred, Nat.testBit_two_pow_mul_add _ (by omega),
    Nat.testBit_two_pow_mul]
  rcases Nat.lt_trichotomy i p with hlt | rfl | hgt
  · simp [Nat.not_le.mpr hlt]
  · simp
  · obtain ⟨k, rfl⟩ := Nat.exists_eq_add_of_lt hgt
    have hshift : p + k + 1 - p = k + 1 := by omega
    rw [if_neg (by omega), hshift, Nat.testBit_succ, Nat.testBit_succ]
    have hhalf : (2 * r + 1) / 2 = r := by omega
    simp [hhalf, Nat.ne_of_gt hgt, Nat.le_of_lt hgt]

theorem bit_and_pred {w : UInt64} (h : w ≠ 0) (i : Nat) :
    bit (w &&& (w - 1)) i = (bit w i && decide (i ≠ lowest w)) := by
  have hone : (1 : UInt64) ≤ w :=
    UInt64.le_iff_toNat_le.mpr (Nat.pos_of_ne_zero fun hzero =>
      h (UInt64.toNat_inj.mp hzero))
  simp only [bit_eq_testBit, UInt64.toNat_and, UInt64.toNat_sub_of_le _ _ hone]
  apply testBit_and_pred
  · rw [← bit_eq_testBit, bit_lowest h]
  · intro i hi
    rw [← bit_eq_testBit, bit_of_lt_lowest hi]

/-- Without its lowest one a word has one fewer behind it. -/
theorem countOnes_and_pred {w : UInt64} (h : w ≠ 0) (n : Nat) :
    countOnes (bit w) n =
      countOnes (bit (w &&& (w - 1))) n + (decide (lowest w < n)).toNat := by
  induction n with
  | zero => rfl
  | succ n ih =>
      rw [countOnes_succ, countOnes_succ, ih, bit_and_pred h]
      rcases Nat.lt_trichotomy (lowest w) n with hlt | heq | hgt
      · simp [hlt, Nat.lt_succ_of_lt hlt, Nat.ne_of_gt hlt]
        omega
      · simp [← heq, bit_lowest h]
      · simp [Nat.not_lt.mpr (Nat.le_of_lt hgt), Nat.not_lt.mpr hgt,
          bit_of_lt_lowest hgt]

end Word

end TripleStore
