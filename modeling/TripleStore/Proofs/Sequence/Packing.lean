import Mathlib.Data.List.GetD
import TripleStore.Sequence.Basic
import TripleStore.Proofs.Bits.Row

/-!
# Packing numbers

Number `i` of a packed sequence is the window of `width` bits from `i * width`
on in the row of its words: `bit_take` reads such a window across two words and
`storedRow_put` writes one without touching its neighbours. So a sequence made
of a list holds the list (`toList_ofList`), in the least width that has room for
it (`width_ofList_le_iff`).
-/

namespace TripleStore

namespace Word

theorem bit_ones (n i : Nat) :
    bit (low (-1) n) i = (decide (i < n) && decide (i < width)) := by
  rw [bit_low]
  congr 1
  by_cases h : i < width
  · have hi : i < 64 := h
    rw [decide_eq_true h, bit]
    have hneg : (-1 : UInt64).toBitVec = BitVec.allOnes 64 := by decide
    rw [hneg, BitVec.getLsbD_allOnes, decide_eq_true hi]
  · rw [decide_eq_false h, bit_of_width_le _ (Nat.le_of_not_lt h)]

/-- The word with ones in its lowest `n` places, made by a shift that stays
within a word. -/
def mask (n : Nat) : UInt64 := if n = width then -1 else (1 <<< n.toUInt64) - 1

/-- Taking one from the one in place `n` sets all places below it. -/
theorem mask_eq_low {n : Nat} (h : n ≤ width) : mask n = low (-1) n := by
  rcases Nat.eq_or_lt_of_le h with rfl | hlt
  · rfl
  · have hn : n.toUInt64.toNat % 64 = n := by
      rw [width] at hlt
      rw [Nat.toUInt64, UInt64.toNat_ofNat']
      omega
    have hpow : 2 ^ n < 2 ^ 64 := Nat.pow_lt_pow_right (by omega) hlt
    have hone : (1 <<< n.toUInt64 : UInt64).toNat = 2 ^ n := by
      rw [UInt64.toNat_shiftLeft, hn, UInt64.toNat_one, Nat.one_shiftLeft,
        Nat.mod_eq_of_lt hpow]
    have hle : (1 : UInt64) ≤ 1 <<< n.toUInt64 := by
      rw [UInt64.le_iff_toNat_le, hone]
      exact Nat.two_pow_pos n
    refine ext fun i hi => ?_
    rw [bit_ones, decide_eq_true hi, Bool.and_true, mask,
      if_neg (Nat.ne_of_lt hlt), bit_eq_testBit,
      UInt64.toNat_sub_of_le _ _ hle, hone]
    exact Nat.testBit_two_pow_sub_one n i

/-- Nothing lies outside the mask just if the number is below its capacity. -/
theorem and_not_mask_eq_zero_iff {w : UInt64} {n : Nat} (h : n ≤ width) :
    w &&& ~~~mask n = 0 ↔ w.toNat < capacity n := by
  have hbit :
      ∀ i < width, bit (w &&& ~~~mask n) i = (bit w i && !decide (i < n)) := by
    intro i hi
    rw [mask_eq_low h, bit_and, bit_not, bit_ones, decide_eq_true hi,
      Bool.true_and, Bool.and_true]
  constructor
  · intro hzero
    rw [capacity_eq_pow]
    apply Nat.lt_pow_two_of_testBit
    intro i hi
    rw [← bit_eq_testBit]
    by_cases hlt : i < width
    · simpa [hzero, Nat.not_lt.mpr hi] using hbit i hlt
    · exact bit_of_width_le w (Nat.le_of_not_lt hlt)
  · intro hw
    refine ext fun i hi => ?_
    rw [hbit i hi, bit_zero]
    by_cases hlt : i < n
    · rw [decide_eq_true hlt, Bool.not_true, Bool.and_false]
    · rw [bit_of_lt_capacity hw (Nat.le_of_not_lt hlt), Bool.false_and]

end Word

namespace Sequence

/-- A value is refused just if it has ones outside the mask. -/
theorem fit_eq_mask (s : Sequence) (v : UInt64) : s.fit v =
    if v &&& ~~~Word.mask s.width ≠ 0 then
      .error (.valueTooLarge v s.width) else .ok () := by
  simp only [fit, ne_eq, Word.and_not_mask_eq_zero_iff s.width_le, ite_not]

/-! ## One window -/

/-- What is taken at a position is the window of bits from there on. -/
theorem bit_take (word : Nat → UInt64) {width : Nat}
    (hwidth : width ≤ Word.width) (start k : Nat) :
    Word.bit (take word width start) k = (decide (k < width) &&
      bitRow word (start + k)) := by
  rw [take, Word.bit_low]
  by_cases hk : k < width
  swap
  · simp [hk]
  have hshift : start % Word.width < Word.width := Nat.mod_lt _ (by decide)
  congr 1
  by_cases hlow : start % Word.width + k < Word.width
  · -- the bit lies in the first of the two words
    have hdiv : (start + k) / Word.width = start / Word.width := by
      rw [Word.width] at *
      omega
    have hmod : (start + k) % Word.width = start % Word.width + k := by
      rw [Word.width] at *
      omega
    have hfirst :
        Word.bit (word (start / Word.width) >>> (start % Word.width).toUInt64)
          k =
        bitRow word (start + k) := by
      rw [Word.bit_shiftRight _ hshift, bitRow, hdiv, hmod]
    split
    · exact hfirst
    · rw [Word.bit_or, hfirst, Word.bit_shiftLeft _ (by omega), decide_eq_true
        (show k < Word.width - start % Word.width by omega)]
      simp
  · -- the bit lies in the second word, at the low end of it
    have hdiv : (start + k) / Word.width = start / Word.width + 1 := by
      rw [Word.width] at *
      omega
    have hmod :
        (start + k) % Word.width = k - (Word.width - start % Word.width) := by
      rw [Word.width] at *
      omega
    rw [if_neg (by omega), Word.bit_or, Word.bit_shiftRight _ hshift,
      Word.bit_of_width_le _ (Nat.le_of_not_lt hlow),
      Word.bit_shiftLeft _ (by omega),
      decide_eq_true (show k < Word.width by omega),
      decide_eq_false (show ¬ k < Word.width - start % Word.width by omega),
      bitRow, hdiv, hmod]
    simp

/-- The bits of the first word when a window is written. -/
theorem bit_putLow (w : UInt64) {value : UInt64} {width shift k : Nat}
    (hvalue : value.toNat < capacity width) (hshift : shift < Word.width)
    (hk : k < Word.width) :
    Word.bit ((w &&& ~~~(Word.low (-1) width <<< shift.toUInt64)) |||
        (value <<< shift.toUInt64)) k =
      if shift ≤ k ∧ k < shift + width then
        Word.bit value (k - shift) else Word.bit w k := by
  rw [Word.bit_or, Word.bit_and, Word.bit_not, Word.bit_shiftLeft _ hshift,
    Word.bit_shiftLeft _ hshift, Word.bit_ones, decide_eq_true hk]
  by_cases hlow : k < shift
  · simp [hlow]
  · have hsub : k - shift < Word.width := by omega
    by_cases hhigh : k < shift + width
    · have hlt : k - shift < width := by omega
      simp [hlow, hhigh, hlt, hsub, Nat.le_of_not_lt hlow]
    · have hge : ¬ k - shift < width := by omega
      simp [hlow, hhigh, hge,
        Word.bit_of_lt_capacity hvalue (Nat.le_of_not_lt hge)]

/-- The bits of the second word when a window is written across two. -/
theorem bit_putHigh (w : UInt64) {value : UInt64} {width shift k : Nat}
    (hvalue : value.toNat < capacity width) (hshift : shift < Word.width)
    (hacross : Word.width < shift + width) (hwidth : width ≤ Word.width)
    (hk : k < Word.width) :
    Word.bit ((w &&& ~~~Word.low (-1) (shift + width - Word.width)) |||
        (value >>> (Word.width - shift).toUInt64)) k =
      if k + Word.width < shift + width then
        Word.bit value (Word.width - shift + k)
      else Word.bit w k := by
  rw [Word.bit_or, Word.bit_and, Word.bit_not, Word.bit_shiftRight _ (by omega),
    Word.bit_ones, decide_eq_true hk]
  by_cases hlow : k + Word.width < shift + width
  · have hlt : k < shift + width - Word.width := by omega
    simp [hlow, hlt]
  · have hge : ¬ k < shift + width - Word.width := by omega
    have hzero := Word.bit_of_lt_capacity hvalue
      (show width ≤ Word.width - shift + k by omega)
    simp [hlow, hge, hzero]

/-- The part of a window that lies in its first word. -/
theorem storedRow_putLow {words : Array UInt64} {width start : Nat}
    {value : UInt64} (hvalue : value.toNat < capacity width)
    (hroom : start / Word.width < words.size) (p : Nat) :
    storedRow (words.modify (start / Word.width) fun w =>
        (w &&& ~~~(Word.low (-1) width <<< (start % Word.width).toUInt64)) |||
          (value <<< (start % Word.width).toUInt64)) p =
      if p / Word.width = start / Word.width ∧ start ≤ p ∧
          p < start + width then
        Word.bit value (p - start)
      else storedRow words p := by
  have hshift : start % Word.width < Word.width := Nat.mod_lt _ (by decide)
  have hbit : p % Word.width < Word.width := Nat.mod_lt _ (by decide)
  rw [storedRow_modify _ hroom, bit_putLow _ hvalue hshift hbit]
  by_cases hword : p / Word.width = start / Word.width
  · have hsub : p % Word.width - start % Word.width = p - start := by
      rw [Word.width] at *
      omega
    have hinside : (start % Word.width ≤ p % Word.width ∧
        p % Word.width < start % Word.width + width) ↔
        (start ≤ p ∧ p < start + width) := by
      rw [Word.width] at *
      omega
    simp only [hword, hsub, hinside, true_and, if_true]
    rw [storedRow, bitRow, hword]
  · simp only [hword, false_and, if_false]

/-- Without a width nothing is written. -/
theorem storedRow_put_zero {words : Array UInt64} {start : Nat} {value : UInt64}
    (hvalue : value.toNat < capacity 0) (p : Nat) :
    storedRow (put words 0 start value) p = storedRow words p := by
  have hinside : start % Word.width + 0 ≤ Word.width :=
    Nat.le_of_lt (Nat.mod_lt _ (by decide))
  rw [put, if_pos hinside]
  by_cases hroom : start / Word.width < words.size
  · rw [storedRow_putLow hvalue hroom, if_neg (by omega)]
  · congr 1
    refine Array.ext' ?_
    rw [Array.toList_modify]
    exact List.modify_eq_self (Nat.le_of_not_lt hroom)

/-- Writing a window changes the bits of the window and no others. -/
theorem storedRow_put {words : Array UInt64} {width start : Nat}
    {value : UInt64} (hwidth : width ≤ Word.width)
    (hvalue : value.toNat < capacity width)
    (hroom : start + width ≤ Word.width * words.size) (p : Nat) :
    storedRow (put words width start value) p =
      if start ≤ p ∧ p < start + width then Word.bit value (p - start)
      else storedRow words p := by
  rcases Nat.eq_zero_or_pos width with rfl | hpos
  · rw [storedRow_put_zero hvalue, if_neg (by omega)]
  have hshift : start % Word.width < Word.width := Nat.mod_lt _ (by decide)
  have hbit : p % Word.width < Word.width := Nat.mod_lt _ (by decide)
  have hfirst : start / Word.width < words.size := by
    rw [Word.width] at *
    omega
  rw [put]
  split
  · next hinside =>
      rw [storedRow_putLow hvalue hfirst]
      congr 1
      rw [Word.width] at *
      exact propext (by omega)
  · next hacross =>
      have hsecond : start / Word.width + 1 < words.size := by
        rw [Word.width] at *
        omega
      rw [storedRow_modify _ (by simpa using hsecond),
        bit_putHigh _ hvalue hshift (by omega) hwidth hbit]
      -- in the second word the first part has changed nothing
      by_cases hword : p / Word.width = start / Word.width + 1
      · have hsub :
            Word.width - start % Word.width + p % Word.width = p - start := by
          rw [Word.width] at *
          omega
        have hinside :
            (p % Word.width + Word.width < start % Word.width + width) ↔
            (start ≤ p ∧ p < start + width) := by
          rw [Word.width] at *
          omega
        simp only [hword, hsub, hinside, if_true]
        have hlow := storedRow_putLow hvalue hfirst p
        rw [if_neg (by omega)] at hlow
        rw [← hlow, storedRow, bitRow, hword]
      · rw [if_neg hword, storedRow_putLow hvalue hfirst]
        congr 1
        rw [Word.width] at *
        exact propext (by omega)

/-! ## Number after number -/

theorem window_iff {width i j k : Nat} (hk : k < width) :
    (i * width ≤ j * width + k ∧ j * width + k < i * width + width) ↔
    j = i := by
  constructor
  · rintro ⟨hle, hlt⟩
    rcases Nat.lt_trichotomy j i with h | h | h
    · have := Nat.mul_le_mul_right width h
      rw [Nat.succ_mul] at this
      omega
    · exact h
    · have := Nat.mul_le_mul_right width h
      rw [Nat.succ_mul] at this
      omega
  · rintro rfl
    omega

/-- The numbers put one after another stand in the windows from number `i` on. -/
theorem storedRow_putAll {words : Array UInt64} {width i : Nat}
    {values : List UInt64} (hwidth : width ≤ Word.width)
    (hvalues : ∀ v ∈ values, v.toNat < capacity width)
    (hroom : (i + values.length) * width ≤ Word.width * words.size) {j k : Nat}
    (hk : k < width) :
    storedRow (putAll width words i values) (j * width + k) =
      if i ≤ j ∧ j < i + values.length then Word.bit (values.getD (j - i) 0) k
      else storedRow words (j * width + k) := by
  induction values generalizing words i with
  | nil => rw [putAll, if_neg (by simp)]
  | cons v vs ih =>
      rw [List.length_cons] at hroom
      have hthis : i * width + width ≤ Word.width * words.size := by
        rw [← Nat.succ_mul]
        exact Nat.le_trans (Nat.mul_le_mul_right _ (by omega)) hroom
      rw [putAll, ih (fun v hv => hvalues v (List.mem_cons_of_mem _ hv))
          (by rwa [size_put, Nat.add_right_comm, Nat.add_assoc]),
        storedRow_put hwidth (hvalues v List.mem_cons_self) hthis]
      simp only [window_iff hk]
      -- the window written now is not written again by the numbers behind it
      by_cases hj : j = i
      · subst hj
        have hsub : j * width + k - j * width = k := by omega
        simp [hsub]
      · by_cases hafter : i + 1 ≤ j ∧ j < i + 1 + vs.length
        · have hsub : j - i = j - (i + 1) + 1 := by omega
          rw [if_pos hafter, if_pos (by rw [List.length_cons]; omega), hsub,
            List.getD_cons_succ]
        · rw [if_neg hafter, if_neg hj,
            if_neg (by rw [List.length_cons]; omega)]

/-! ## Values -/

theorem bit_value (s : Sequence) (i k : Nat) :
    Word.bit (s.value i) k = (decide (k < s.width) &&
      bitRow s.words.word (i * s.width + k)) := by
  rw [value]
  split
  · next h => simp [h]
  · exact bit_take _ s.width_le _ _

/-- Sequences of one width have the same number where their rows agree. -/
theorem value_eq_of_bitRow {s t : Sequence}
    (hwidth : s.width = t.width) {i : Nat}
    (h : ∀ k < s.width, bitRow s.words.word (i * s.width + k) =
      bitRow t.words.word (i * s.width + k)) : s.value i = t.value i := by
  apply Word.ext
  intro k _
  rw [bit_value, bit_value, ← hwidth]
  by_cases hk : k < s.width
  · rw [h k hk]
  · simp [hk]

instance : Std.LawfulOrderMax UInt64 where
  max_le_iff v w bound := by
    show (if v ≤ w then w else v) ≤ bound ↔ _
    split <;> grind
  max_eq_or v w := by
    show (if v ≤ w then w else v) = v ∨ (if v ≤ w then w else v) = w
    split
    · exact .inr rfl
    · exact .inl rfl

theorem maximum_eq_max? (values : List UInt64) :
    maximum values = values.max?.getD 0 := by
  cases values with
  | nil => rfl
  | cons v vs =>
      have hfirst : max 0 v = v := if_pos v.zero_le
      rw [List.max?_cons', maximum, List.foldl_cons, hfirst, Option.getD_some]

/-- The maximum is the largest of the values, if there are any. -/
theorem maximum_spec {values : List UInt64} (h : values ≠ []) :
    maximum values ∈ values ∧ ∀ v ∈ values, v ≤ maximum values := by
  obtain ⟨m, hm⟩ := Option.isSome_iff_exists.mp (List.isSome_max?_of_ne_nil h)
  rw [maximum_eq_max?, hm]
  exact List.max?_eq_some_iff.mp hm

theorem le_maximum {values : List UInt64} {v : UInt64} (h : v ∈ values) :
    v ≤ maximum values :=
  (maximum_spec (List.ne_nil_of_mem h)).2 v h

theorem bitsNeeded_le_iff {n : UInt64} {width : Nat} :
    bitsNeeded n ≤ width ↔ n.toNat < capacity width := by
  rw [bitsNeeded, capacity_eq_pow]
  split
  · next h =>
      subst h
      exact iff_of_true (Nat.zero_le width) (Nat.two_pow_pos width)
  · next h =>
      have hne : n.toNat ≠ 0 := fun hzero => h (UInt64.toNat_inj.mp hzero)
      exact Nat.log2_lt hne

@[simp] theorem size_ofList (values : List UInt64) :
    (ofList values).size = values.length := rfl

/-- A list is packed in the least width that has room for all its values. -/
theorem width_ofList_le_iff {values : List UInt64} {width : Nat} :
    (ofList values).width ≤ width ↔ ∀ v ∈ values, v.toNat < capacity width := by
  refine bitsNeeded_le_iff.trans ⟨fun h v hv => ?_, fun h => ?_⟩
  · exact Nat.lt_of_le_of_lt (UInt64.le_iff_toNat_le.mp (le_maximum hv)) h
  · by_cases hnil : values = []
    · subst hnil
      exact capacity_pos width
    · exact h _ (maximum_spec hnil).1

/-- The windows of a packed list are its values, and behind them nothing is set. -/
theorem bitRow_ofList {values : List UInt64} {j k : Nat}
    (hk : k < (ofList values).width) :
    bitRow (ofList values).words.word (j * (ofList values).width + k) =
      Word.bit (values.getD j 0) k := by
  have hroom : (0 + values.length) * (ofList values).width ≤ Word.width *
      (Array.replicate (wordsFor (values.length * (ofList values).width))
        (0 : UInt64)).size := by
    rw [Array.size_replicate, Nat.zero_add, wordsFor, Word.width]
    omega
  have hrow := storedRow_putAll (ofList values).width_le
    (width_ofList_le_iff.mp (Nat.le_refl _))
    hroom (j := j) hk
  refine hrow.trans ?_
  by_cases hj : j < values.length
  · rw [if_pos ⟨Nat.zero_le j, by omega⟩, Nat.sub_zero]
  · rw [if_neg (by omega), storedRow_replicate,
      List.getD_eq_default _ _ (Nat.le_of_not_lt hj), Word.bit_zero]

theorem value_ofList {values : List UInt64} {i : Nat} (h : i < values.length) :
    (ofList values).value i = values[i] := by
  apply Word.ext
  intro k _
  rw [bit_value]
  by_cases hk : k < (ofList values).width
  · rw [bitRow_ofList hk, decide_eq_true hk, Bool.true_and,
      List.getD_eq_getElem _ _ h]
  · have hfits := width_ofList_le_iff.mp (Nat.le_refl _) _ (List.getElem_mem h)
    rw [decide_eq_false hk, Bool.false_and]
    exact (Word.bit_of_lt_capacity hfits (Nat.le_of_not_lt hk)).symm

theorem toList_ofList (values : List UInt64) :
    (ofList values).toList = values := by
  apply List.ext_getElem
  · simp [toList]
  · intro i h _
    simp only [toList, List.getElem_map, List.getElem_range]
    exact value_ofList (by simpa [toList] using h)

end Sequence

end TripleStore
