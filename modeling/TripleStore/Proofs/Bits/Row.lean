import TripleStore.Bitmap.Directory
import TripleStore.Proofs.Bits.Word

/-!
# Rows of words

Words side by side are one row of bits. The ones below a position of the row are
those of the words before it and those below it in its own word.
-/

namespace TripleStore

/-- The bits of words side by side. -/
def bitRow (word : Nat → UInt64) (i : Nat) : Bool :=
  Word.bit (word (i / Word.width)) (i % Word.width)

theorem bitRow_word (word : Nat → UInt64) (i : Nat) {k : Nat}
    (h : k < Word.width) :
    bitRow word (Word.width * i + k) = Word.bit (word i) k := by
  have hk : k < 64 := h
  have hdiv : (64 * i + k) / 64 = i := by omega
  have hmod : (64 * i + k) % 64 = k := by omega
  simp only [bitRow, Word.width, hdiv, hmod]

/-- The ones below position `k` of word `i`. -/
theorem countOnes_bitRow_word (word : Nat → UInt64) (i : Nat) {k : Nat}
    (h : k ≤ Word.width) :
    countOnes (bitRow word) (Word.width * i + k) =
      countOnes (bitRow word) (Word.width * i) + Word.onesBelow (word i) k := by
  rw [countOnes_add, Word.onesBelow_eq_countOnes]
  congr 1
  exact countOnes_congr fun j hj => bitRow_word word i (by omega)

theorem countOnes_bitRow_succ (word : Nat → UInt64) (i : Nat) :
    countOnes (bitRow word) (Word.width * (i + 1)) =
      countOnes (bitRow word) (Word.width * i) + Word.ones (word i) :=
  countOnes_bitRow_word word i (Nat.le_refl _)

/-- Rows agree if their words do. -/
theorem bitRow_congr {v w : Nat → UInt64} (h : ∀ i, v i = w i) :
    bitRow v = bitRow w := by
  funext i
  rw [bitRow, bitRow, h]

/-! ## Rows of stored words -/

/-- The bits of stored words, and zeros past the end. -/
def storedRow (words : Array UInt64) : Nat → Bool :=
  bitRow fun i => words.getD i 0

theorem storedRow_of_size_le {words : Array UInt64} {i : Nat}
    (h : Word.width * words.size ≤ i) : storedRow words i = false := by
  have hout : ¬ i / Word.width < words.size := by
    rw [Word.width] at *
    omega
  simp [storedRow, bitRow, Array.getD, hout]

/-- Words that are cut off leave the row before them. -/
theorem storedRow_extract {words : Array UInt64} {n i : Nat}
    (h : i / Word.width < n) :
    storedRow (words.extract 0 n) i = storedRow words i := by
  rw [storedRow, storedRow, bitRow, bitRow, Array.getD_eq_getD_getElem?,
    Array.getD_eq_getD_getElem?, Array.getElem?_extract, Nat.zero_add,
    Nat.sub_zero]
  by_cases hstored : i / Word.width < words.size
  · rw [if_pos (Nat.lt_min.mpr ⟨h, hstored⟩)]
  · rw [if_neg (fun hmin => hstored (Nat.lt_min.mp hmin).2),
      Array.getElem?_eq_none (Nat.le_of_not_lt hstored)]

@[simp] theorem storedRow_replicate (n p : Nat) :
    storedRow (Array.replicate n 0) p = false := by
  rw [storedRow, bitRow, Array.getD_eq_getD_getElem?, Array.getElem?_replicate]
  split <;> exact Word.bit_zero _

theorem storedRow_append_zeros (words : Array UInt64) (n : Nat) :
    storedRow (words ++ Array.replicate n 0) = storedRow words := by
  apply bitRow_congr
  intro i
  rw [Array.getD_eq_getD_getElem?, Array.getD_eq_getD_getElem?,
    Array.getElem?_append]
  split
  · rfl
  · next h =>
      rw [Array.getElem?_replicate, Array.getElem?_eq_none (Nat.le_of_not_lt h)]
      split <;> rfl

theorem storedRow_push_zero (words : Array UInt64) :
    storedRow (words.push 0) = storedRow words := by
  rw [Array.push_eq_append]
  exact storedRow_append_zeros words 1

/-- Changing a word changes its own bits. -/
theorem storedRow_modify {words : Array UInt64} {i : Nat} (f : UInt64 → UInt64)
    (h : i < words.size) (p : Nat) :
    storedRow (words.modify i f) p =
      if p / Word.width = i then Word.bit (f (words.getD i 0)) (p % Word.width)
      else storedRow words p := by
  rw [storedRow, bitRow, Array.getD_eq_getD_getElem?, Array.getElem?_modify]
  by_cases hp : p / Word.width = i
  · rw [if_pos hp, if_pos hp.symm, hp, Array.getD_eq_getD_getElem?,
      Array.getElem?_eq_getElem h]
    rfl
  · rw [if_neg hp, if_neg (Ne.symm hp), ← Array.getD_eq_getD_getElem?]
    rfl

end TripleStore
