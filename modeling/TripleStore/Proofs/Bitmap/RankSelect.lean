import TripleStore.Bitmap.Basic
import TripleStore.Proofs.Bitmap.Directory

/-!
# Rank and select

A bitmap counts its ones exactly (`rankBefore_eq`), whatever stray bits its
words hold past the end, and finds the one with a given number (`select1_spec`).
A one is where selecting its rank leads (`select1_of_lt`).
-/

namespace TripleStore

/-- Each of `n` bits has a word. -/
theorem div_lt_wordsFor {i n : Nat} (h : i < n) :
    i / Word.width < wordsFor n := by
  rw [Word.width, wordsFor]
  omega

theorem bit_maskedWord (words : Words) (size i k : Nat) :
    Word.bit (maskedWord words size i) k =
      (decide (Word.width * i + k < size) && Word.bit (words.word i) k) := by
  rw [maskedWord, Word.bit_low]
  congr 1
  exact decide_eq_decide.mpr (by omega)

namespace Bitmap

/-- The row of a bitmap's words has its bits, and zeros past the end. -/
theorem bitRow_word (b : Bitmap) (i : Nat) :
    bitRow b.word i = (decide (i < b.size) && b.bit i) := by
  rw [bitRow, word, bit_maskedWord, Nat.div_add_mod]
  rfl

theorem countOnes_word {b : Bitmap} {i : Nat} (h : i ≤ b.size) :
    countOnes (bitRow b.word) i = countOnes b.bit i := by
  apply countOnes_congr
  intro j hj
  rw [bitRow_word, decide_eq_true (show j < b.size by omega), Bool.true_and]

theorem blocksFor_lt {size : Nat} (h : size ≤ maxBits) :
    Directory.blocksFor size < 2 ^ 32 := by
  have hmax : maxBits = (2 ^ 32 - 1) * 512 := rfl
  rw [hmax] at h
  rw [Directory.blocksFor, Block.bits, Block.words, Word.width]
  omega

theorem exact_directory (b : Bitmap) :
    Directory.Exact (bitRow b.word) b.directory
      (Directory.blocksFor b.size) := by
  have h := Directory.exact_build (maskedWord b.words b.size)
    (blocksFor_lt b.size_le)
  rw [← b.directory_eq] at h
  exact h

/-- There are no ones past the end. -/
theorem countOnes_word_of_le {b : Bitmap} {i : Nat} (h : b.size ≤ i) :
    countOnes (bitRow b.word) i = countOnes b.bit b.size := by
  obtain ⟨m, rfl⟩ := Nat.exists_eq_add_of_le h
  rw [countOnes_add, countOnes_word (Nat.le_refl _)]
  have hzero : countOnes (fun k => bitRow b.word (b.size + k)) m =
      countOnes (fun _ => false) m :=
    countOnes_congr fun k _ => by simp [bitRow_word]
  rw [hzero]
  simp [countOnes, Nat.count_false]

theorem ones_eq (b : Bitmap) : b.ones = countOnes b.bit b.size := by
  rw [ones, b.exact_directory.ones]
  exact countOnes_word_of_le (Directory.size_le_blocksFor b.size)

theorem rankBefore_eq (b : Bitmap) (i : Nat) :
    b.rankBefore i = countOnes b.bit (min i b.size) := by
  have hle : min i b.size ≤ b.size := Nat.min_le_right _ _
  rw [rankBefore, Directory.rank_eq b.exact_directory
    (Nat.le_trans hle (Directory.size_le_blocksFor b.size)), countOnes_word hle]

theorem rankBefore_of_le {b : Bitmap} {i : Nat} (h : i ≤ b.size) :
    b.rankBefore i = countOnes b.bit i := by
  rw [rankBefore_eq, Nat.min_eq_left h]

/-- What is selected is a one of the bitmap, with the ones of smaller number
before it. -/
theorem select1_spec {b : Bitmap} {k : Nat} (hpos : 0 < k) (hk : k ≤ b.ones) :
    ∃ i < b.size, b.select1 k = .ok i ∧ b.bit i = true ∧
      countOnes b.bit i + 1 = k := by
  obtain ⟨hbit, hcount⟩ := Directory.select_eq b.exact_directory hpos hk
  rw [bitRow_word, Bool.and_eq_true, decide_eq_true_eq] at hbit
  rw [countOnes_word (Nat.le_of_lt hbit.1)] at hcount
  refine ⟨b.directory.select b.word k, hbit.1, ?_, hbit.2, hcount⟩
  rw [select1, if_neg (by omega)]

theorem select1_of_lt {b : Bitmap} {i : Nat} (hi : i < b.size)
    (hbit : b.bit i = true) :
    b.select1 (countOnes b.bit i + 1) = .ok i := by
  have hle : countOnes b.bit (i + 1) ≤ b.ones := by
    rw [ones_eq]
    exact countOnes_mono _ hi
  rw [countOnes_succ, hbit] at hle
  obtain ⟨j, _, hselect, hj, hcount⟩ :=
    select1_spec (b := b) (Nat.succ_pos _) hle
  rw [hselect, eq_of_countOnes_eq hj hbit (Nat.succ_injective hcount)]

end Bitmap

end TripleStore
