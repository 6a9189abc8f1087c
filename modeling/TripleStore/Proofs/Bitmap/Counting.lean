import Mathlib.Data.Bool.Count
import TripleStore.Proofs.Checked.Fits
import TripleStore.Proofs.Outcome

/-!
# Counting and finding ones

However a bitmap came about, its ranks are the ones of its list of bits
(`rank_exact`), and the one number `k` is found where it stands in that list
(`select1_exact`). Neither sees the stray bits that words may hold past the end,
and neither reads a block, a sample or a word that there is not.
-/

namespace TripleStore

namespace Bitmap

/-! ## Where bitmaps come from -/

/-- The bitmap was built of bits or by a builder, cut out of words or read. -/
inductive Made (b : Bitmap) : Prop where
  | built (bits : List Bool) (h : ofBits bits = .ok b)
  | finished (builder : Builder) (h : builder.finish = b)
  | cut (words : Array UInt64) (size : Nat) (h : ofWords words size = .ok b)
  | read (config : Config) (before after : Scan.State)
    (h : read config before = .ok b after)

variable {b : Bitmap}

theorem fits_of_ofWords {words : Array UInt64} {size : Nat}
    (h : ofWords words size = .ok b) :
    b.words.Fits := by
  unfold ofWords at h
  split at h
  · cases h
  split at h
  · cases h
  · cases h
    trivial

theorem Made.fits (h : b.Made) : b.words.Fits := by
  cases h with
  | built bits h => exact fits_of_ofBits h
  | finished builder h => exact h ▸ trivial
  | cut words size h => exact fits_of_ofWords h
  | read config before after h => exact yields_read config before b after h

/-! ## The list of bits -/

theorem count_map_range (bits : Nat → Bool) (n : Nat) :
    ((List.range n).map bits).count true = countOnes bits n := by
  induction n with
  | zero => rfl
  | succ n ih =>
      rw [List.range_succ, List.map_append, List.count_append, ih,
        countOnes_succ]
      cases h : bits n <;> simp [h]

@[simp] theorem length_toList (b : Bitmap) : b.toList.length = b.size := by
  simp [toList]

theorem take_toList (b : Bitmap) (n : Nat) :
    b.toList.take n = (List.range (min n b.size)).map b.bit := by
  rw [toList, ← List.map_take, List.take_range]

/-- The ones in the first `n` bits. -/
theorem count_take_toList (b : Bitmap) (n : Nat) :
    (b.toList.take n).count true = countOnes b.bit (min n b.size) := by
  rw [take_toList, count_map_range]

theorem count_toList (b : Bitmap) : b.toList.count true = b.ones := by
  rw [ones_eq, toList, count_map_range]

theorem getElem?_toList_eq_some {i : Nat} {v : Bool} :
    b.toList[i]? = some v ↔ i < b.size ∧ b.bit i = v := by
  simp [toList, List.getElem?_eq_some_iff]

theorem get_eq_ok {i : Nat} {v : Bool} :
    b.get i = .ok v ↔ b.toList[i]? = some v := by
  rw [getElem?_toList_eq_some, get]
  split
  · next hi => simp [hi]
  · next hi => simp [hi]

/-! ## Ranks -/

/-- Both kinds of bits together are all bits. -/
theorem count_add_count_take (b : Bitmap) (n : Nat) :
    (b.toList.take n).count false + (b.toList.take n).count true =
      min n b.size := by
  rw [Nat.add_comm, List.count_true_add_count_false, List.length_take,
    length_toList]

/-- A word can count one more than any position of a bitmap. -/
theorem size_lt_capacity (b : Bitmap) : b.size < capacity 64 - 1 := by
  have hcapacity : maxBits < capacity 64 - 1 := by decide
  exact Nat.lt_of_le_of_lt b.size_le hcapacity

theorem rank1_eq_count (b : Bitmap) (i : Nat) :
    b.rank1 i = (b.toList.take (i + 1)).count true := by
  rw [rank1, rankBefore_eq, count_take_toList]

/-- Counting one position further may stop at the largest number that a word
holds. -/
theorem rankBefore_saturated (b : Bitmap) (i : Nat) :
    b.rankBefore (min (i + 1) (capacity 64 - 1)) = b.rank1 i := by
  have hsize := b.size_lt_capacity
  rw [rank1, rankBefore_eq, rankBefore_eq, Nat.min_assoc,
    Nat.min_eq_right (Nat.le_of_lt hsize)]

theorem rank0_eq_count (b : Bitmap) (i : Nat) :
    b.rank0 i = (b.toList.take (i + 1)).count false := by
  rw [rank0, rank1_eq_count, ← count_add_count_take, Nat.add_sub_cancel]

theorem ones_le_size (b : Bitmap) : b.ones ≤ b.size := by
  rw [ones_eq]
  exact countOnes_le _ _

/-- Ranks count the ones of the list up to any position, also past the end,
where adding one stops at the largest number that a word holds. The other bits
up to the position are the zeros, and no block is missing on the way. -/
theorem rank_exact (h : b.Made) (i : Nat) :
    b.rankBefore i = (b.toList.take (min i b.size)).count true ∧
    b.rank1 i = (b.toList.take (i + 1)).count true ∧
    b.rankBefore (min (i + 1) (capacity 64 - 1)) = b.rank1 i ∧
    b.rank0 i = (b.toList.take (i + 1)).count false ∧
    b.rank0 i + b.rank1 i = min (i + 1) b.size ∧
    b.ones = b.toList.count true ∧ b.ones + b.zeros = b.size ∧
    Checked.rankBefore b i = some (b.rankBefore i) := by
  refine ⟨?_, b.rank1_eq_count i, b.rankBefore_saturated i,
    b.rank0_eq_count i, ?_, b.count_toList.symm,
    Nat.add_sub_cancel' b.ones_le_size, Checked.rankBefore_eq h.fits i⟩
  · rw [rankBefore_eq, count_take_toList, Nat.min_assoc, Nat.min_self]
  · rw [rank0_eq_count, rank1_eq_count, count_add_count_take]

theorem rank_exact_stray : ∃ b, ofWords #[0xF0, 0xFF] 65 = .ok b ∧
    b.rankBefore (capacity 64 - 1) = 5 ∧ b.rank1 (capacity 64 - 1) = 5 ∧
    b.rank0 (capacity 64 - 1) = 60 ∧ b.ones + b.zeros = 65 ∧
    Checked.rankBefore b (capacity 64 - 1) = some 5 := by
  have heval : ((do
      let b ← ofWords #[0xF0, 0xFF] 65
      return (b.size, b.toList) : Except Error (Nat × List Bool))).toOption =
      some (65, List.replicate 4 false ++ List.replicate 4 true ++
        List.replicate 56 false ++ [true]) := by
    decide +kernel
  obtain ⟨b, hb, heval⟩ := bind_eq_ok.mp (toOption_eq_some.mp heval)
  obtain ⟨hsize, hlist⟩ := Prod.mk.inj (Except.ok.inj heval)
  obtain ⟨hbefore, hrank, -, hzeros, -, -, htotal, hchecked⟩ :=
    rank_exact (.cut _ _ hb) (capacity 64 - 1)
  have hfive : b.rankBefore (capacity 64 - 1) = 5 := by
    rw [hbefore, hsize, hlist]
    decide +kernel
  refine ⟨b, hb, hfive, ?_, ?_, htotal.trans hsize, hfive ▸ hchecked⟩
  · rw [hrank, hlist]
    decide +kernel
  · rw [hzeros, hlist]
    decide +kernel

/-! ## Selecting -/

/-- The one number `k`, counted from 1, stands at position `p` of a row of bits. -/
def OneAt (bits : List Bool) (k p : Nat) : Prop :=
  bits[p]? = some true ∧ (bits.take (p + 1)).count true = k

theorem oneAt_toList {k p : Nat} :
    OneAt b.toList k p ↔ p < b.size ∧ b.bit p = true ∧
    countOnes b.bit p + 1 = k := by
  rw [OneAt, getElem?_toList_eq_some, count_take_toList, and_assoc]
  refine and_congr_right fun hp => and_congr_right fun hbit => ?_
  rw [Nat.min_eq_left hp, countOnes_succ, hbit]
  rfl

/-- There is only one position at which the one number `k` stands. -/
theorem OneAt.unique {k p q : Nat} (hp : OneAt b.toList k p)
    (hq : OneAt b.toList k q) : q = p := by
  obtain ⟨-, hbit, hcount⟩ := oneAt_toList.mp hp
  obtain ⟨-, hbit', hcount'⟩ := oneAt_toList.mp hq
  exact eq_of_countOnes_eq hbit' hbit
    (Nat.succ_injective (hcount'.trans hcount.symm))

theorem select1_of_oneAt {k p : Nat} (h : OneAt b.toList k p) :
    b.select1 k = .ok p := by
  obtain ⟨hp, hbit, rfl⟩ := oneAt_toList.mp h
  exact select1_of_lt hp hbit

/-- A number from 1 up to the number of ones leads to the only position where
the one with this number stands, and the search for it stays among the blocks,
samples and words that there are; any other number is out of range. So the rank
of a one leads back to it. -/
theorem select1_exact (h : b.Made) (k : Nat) :
    (0 < k ∧ k ≤ b.ones → ∃ p, b.select1 k = .ok p ∧
      Checked.select1 b k = some p ∧
      ∀ q, OneAt b.toList k q ↔ q = p) ∧
    (¬ (0 < k ∧ k ≤ b.ones) →
      b.select1 k = .error (.outOfRange k (b.ones + 1))) ∧
    ∀ i, b.get i = .ok true → b.select1 (b.rank1 i) = .ok i := by
  refine ⟨?_, ?_, ?_⟩
  · rintro ⟨hpos, hk⟩
    obtain ⟨p, hp, hselect, hbit, hcount⟩ := select1_spec hpos hk
    obtain ⟨q, hchecked, hselect'⟩ := Checked.select1_eq h.fits hpos hk
    rw [hselect] at hselect'
    cases hselect'
    have hone : OneAt b.toList k p := oneAt_toList.mpr ⟨hp, hbit, hcount⟩
    refine ⟨p, hselect, hchecked, fun q => ⟨hone.unique, ?_⟩⟩
    rintro rfl
    exact hone
  · intro hrange
    rw [select1, if_pos (by omega)]
  · intro i hi
    exact select1_of_oneAt ⟨get_eq_ok.mp hi, (b.rank1_eq_count i).symm⟩

theorem select1_exact_boundary :
    ∃ b, ofWords (Array.replicate 9 (0 - 1)) 513 = .ok b ∧
    b.select1 512 = .ok 511 ∧ b.select1 513 = .ok 512 ∧
    Checked.select1 b 513 = some 512 ∧
    b.select1 514 = .error (.outOfRange 514 514) ∧
    b.select1 (b.rank1 511) = .ok 511 := by
  have heval : ((do
      let b ← ofWords (Array.replicate 9 (0 - 1)) 513
      return (b.ones, b.toList) : Except Error (Nat × List Bool))).toOption =
      some (513, List.replicate 513 true) := by decide +kernel
  obtain ⟨b, hb, heval⟩ := bind_eq_ok.mp (toOption_eq_some.mp heval)
  obtain ⟨hones, hlist⟩ := Prod.mk.inj (Except.ok.inj heval)
  have hone : ∀ p < 513, OneAt b.toList (p + 1) p := by
    intro p hp
    rw [OneAt, hlist]
    constructor
    · rw [List.getElem?_replicate, if_pos hp]
    · rw [List.take_replicate, List.count_replicate_self, Nat.min_eq_left hp]
  have hat : ∀ p < 513, b.select1 (p + 1) = .ok p ∧
      Checked.select1 b (p + 1) = some p := by
    intro p hp
    obtain ⟨q, hselect, hchecked, honly⟩ :=
      (select1_exact (.cut _ _ hb) (p + 1)).1 (by omega)
    obtain rfl := (honly p).mp (hone p hp)
    exact ⟨hselect, hchecked⟩
  refine ⟨b, hb, (hat 511 (by decide)).1, (hat 512 (by decide)).1,
    (hat 512 (by decide)).2, ?_, ?_⟩
  · have hout := (select1_exact (.cut _ _ hb) 514).2.1 (by omega)
    rwa [hones] at hout
  · exact (select1_exact (.cut _ _ hb) 514).2.2 511
      (get_eq_ok.mpr (hone 511 (by decide)).1)

end Bitmap

end TripleStore
