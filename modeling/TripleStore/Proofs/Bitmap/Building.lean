import TripleStore.Bitmap.Basic
import TripleStore.Proofs.Bits.Row

/-!
# Building bitmaps

A bitmap that is built bit by bit holds these bits, and building fails only
where there are too many of them.
-/

namespace TripleStore.Bitmap

namespace Builder

/-- A builder holds `bits`, and nothing but zeros behind them. -/
structure Holds (b : Builder) (bits : List Bool) : Prop where
  size : b.size = bits.length
  row : ∀ i, storedRow b.words i = bits.getD i false

theorem holds_empty : Holds empty [] where
  size := rfl
  row := fun i => storedRow_of_size_le (Nat.zero_le i)

theorem storedRow_room (words : Array UInt64) (size : Nat) :
    storedRow (room words size) = storedRow words := by
  unfold room
  split
  · exact storedRow_push_zero words
  · rfl

/-- The word that the next bit goes into is there. -/
theorem lt_size_room (b : Builder) :
    b.size / Word.width < (room b.words b.size).size := by
  rw [size_room b.size_words, wordsFor, Word.width]
  omega

theorem getD_concat (bits : List Bool) (bit : Bool) (i : Nat) :
    (bits ++ [bit]).getD i false = if i = bits.length then bit
      else bits.getD i false := by
  rw [List.getD_eq_getElem?_getD, List.getD_eq_getElem?_getD,
    List.getElem?_append]
  by_cases hi : i < bits.length
  · rw [if_pos hi, if_neg (by omega)]
  · rw [if_neg hi, List.getElem?_eq_none (Nat.le_of_not_lt hi),
      List.getElem?_singleton]
    by_cases hlast : i = bits.length
    · simp [hlast]
    · rw [if_neg (by omega), if_neg hlast]

theorem push_spec {b : Builder} {bits : List Bool} (h : Holds b bits)
    (bit : Bool) (hroom : bits.length < maxBits) :
    ∃ b', b.push bit = .ok b' ∧ Holds b' (bits ++ [bit]) := by
  have hsize : ¬ maxBits ≤ b.size := by
    rw [h.size]
    omega
  cases bit with
  | false =>
      refine ⟨⟨room b.words b.size, b.size + 1,
        size_room b.size_words, by omega⟩,
        by simp [push, hsize], by simp [h.size], fun i => ?_⟩
      rw [storedRow_room, h.row, getD_concat]
      by_cases hi : i = bits.length
      · simp [hi]
      · rw [if_neg hi]
  | true =>
      refine ⟨⟨(room b.words b.size).modify (b.size / Word.width)
          (· ||| Word.single (b.size % Word.width)), b.size + 1,
          by rw [Array.size_modify]; exact size_room b.size_words, by omega⟩,
        by simp [push, hsize], by simp [h.size], fun i => ?_⟩
      have hmod : b.size % Word.width < Word.width := Nat.mod_lt _ (by decide)
      rw [storedRow_modify _ (lt_size_room b), getD_concat, Word.bit_or,
        Word.bit_single hmod, ← h.row i, ← storedRow_room b.words b.size, ← h.size]
      by_cases hword : i / Word.width = b.size / Word.width
      · have hplace : decide (i % Word.width = b.size % Word.width) =
            decide (i = b.size) := by
          rw [Word.width] at *
          exact decide_eq_decide.mpr (by omega)
        rw [if_pos hword, hplace, ← hword]
        by_cases hi : i = b.size
        · simp [hi]
        · simp [hi, storedRow, bitRow]
      · rw [if_neg hword, if_neg (by
          rintro rfl
          exact hword rfl)]

theorem pushAll_spec {b : Builder} {held : List Bool} (h : Holds b held)
    (bits : List Bool) (hroom : held.length + bits.length ≤ maxBits) :
    ∃ b', b.pushAll bits = .ok b' ∧ Holds b' (held ++ bits) := by
  induction bits generalizing b held with
  | nil => exact ⟨b, rfl, by simpa using h⟩
  | cons bit bits ih =>
      rw [List.length_cons] at hroom
      obtain ⟨b₁, hpush, hholds⟩ := push_spec h bit (by omega)
      obtain ⟨b₂, hpushAll, hholds₂⟩ := ih hholds (by simp; omega)
      refine ⟨b₂, ?_, by simpa using hholds₂⟩
      rw [pushAll, List.foldlM_cons, hpush]
      exact hpushAll

theorem pushAll_concat (b : Builder) (bits : List Bool) (bit : Bool) :
    b.pushAll (bits ++ [bit]) = b.pushAll bits >>= (·.push bit) := by
  simp [pushAll]

/-- Behind bits that were pushed there is room for one more, if they are not too
many. -/
theorem exists_push {b : Builder} {bits : List Bool}
    (h : empty.pushAll bits = .ok b) (bit : Bool)
    (hroom : bits.length < maxBits) :
    ∃ b', b.push bit = .ok b' ∧ empty.pushAll (bits ++ [bit]) = .ok b' := by
  obtain ⟨b', hb', -⟩ := pushAll_spec holds_empty (bits ++ [bit])
    (by simpa using Nat.succ_le_of_lt hroom)
  refine ⟨b', ?_, hb'⟩
  rw [pushAll_concat, h] at hb'
  exact hb'

/-- One bit too many is refused. -/
theorem pushAll_error {b : Builder} (bits : List Bool)
    (h : maxBits < b.size + bits.length) :
    b.pushAll bits = .error (.construction (.tooManyBits maxBits)) := by
  induction bits generalizing b with
  | nil =>
      have := b.size_le
      simp at h
      omega
  | cons bit bits ih =>
      rw [List.length_cons] at h
      rw [pushAll, List.foldlM_cons, push]
      by_cases hfull : maxBits ≤ b.size
      · rw [dif_pos hfull]
        rfl
      · rw [dif_neg hfull]
        cases bit <;> exact ih (by simp only; omega)

end Builder

/-- A bitmap holds the bits that it is built from. -/
structure Holds (b : Bitmap) (bits : List Bool) : Prop where
  size : b.size = bits.length
  bit : ∀ i < b.size, b.bit i = bits.getD i false

theorem ofBits_spec {bits : List Bool} (h : bits.length ≤ maxBits) :
    ∃ b, ofBits bits = .ok b ∧ b.Holds bits := by
  obtain ⟨builder, hpush, hholds⟩ :=
    Builder.pushAll_spec Builder.holds_empty bits (by simpa using h)
  refine ⟨builder.finish, ?_, hholds.size, fun i _ => hholds.row i⟩
  rw [ofBits, hpush]
  rfl

/-- What a builder is finished to is what is built of the bits that were pushed. -/
theorem ofBits_of_pushAll {bits : List Bool} {builder : Builder}
    (h : Builder.empty.pushAll bits = .ok builder) :
    ofBits bits = .ok builder.finish := by
  rw [ofBits, h]
  rfl

theorem ofBits_error {bits : List Bool} (h : maxBits < bits.length) :
    ofBits bits = .error (.construction (.tooManyBits maxBits)) := by
  have := Builder.pushAll_error (b := Builder.empty) bits
    (by simpa [Builder.empty] using h)
  rw [ofBits, this]
  rfl

theorem holds_of_ofBits {bits : List Bool} {b : Bitmap}
    (h : ofBits bits = .ok b) :
    b.Holds bits ∧ bits.length ≤ maxBits := by
  by_cases hle : bits.length ≤ maxBits
  · obtain ⟨b', hb', hholds⟩ := ofBits_spec hle
    rw [hb'] at h
    cases h
    exact ⟨hholds, hle⟩
  · rw [ofBits_error (Nat.lt_of_not_le hle)] at h
    cases h

end TripleStore.Bitmap
