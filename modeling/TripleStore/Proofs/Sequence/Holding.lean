import TripleStore.Proofs.Outcome
import TripleStore.Proofs.Sequence.Section

/-!
# Sequences in memory

A sequence that can be changed holds a list if its values are that list and no
bit is set past the last of them (`Holds`). A write into the window of one
number changes that number and no other (`Puts.value`) and sets nothing outside
(`Puts.clean`), so that appending and replacing do to the list what they say.
What is held is read back from its bytes in the same words (`Holds.reread`).
-/

namespace TripleStore.Sequence

variable {s t : Sequence} {values : List UInt64} {i : Nat} {v : UInt64}

/-! ## One number -/

/-- The row of `t` is that of `s` with `v` as number `i`. -/
structure Puts (s : Sequence) (i : Nat) (v : UInt64) (t : Sequence) : Prop where
  width : t.width = s.width
  fits : v.toNat < capacity s.width
  row : ∀ p, bitRow t.words.word p =
    if i * s.width ≤ p ∧ p < i * s.width + s.width then
      Word.bit v (p - i * s.width)
    else bitRow s.words.word p

theorem Puts.value (h : s.Puts i v t) (j : Nat) :
    t.value j = if j = i then v else s.value j := by
  apply Word.ext
  intro k _
  rw [bit_value, h.width]
  by_cases hk : k < s.width
  · rw [decide_eq_true hk, Bool.true_and, h.row]
    simp only [window_iff hk]
    split
    · next hj => rw [hj, Nat.add_sub_cancel_left]
    · rw [bit_value, decide_eq_true hk, Bool.true_and]
  · rw [decide_eq_false hk, Bool.false_and]
    split
    · exact (Word.bit_of_lt_capacity h.fits (Nat.le_of_not_lt hk)).symm
    · rw [bit_value, decide_eq_false hk, Bool.false_and]

/-- No bit is set from number `n` on. -/
def CleanFrom (s : Sequence) (n : Nat) : Prop :=
  ∀ p, n * s.width ≤ p → bitRow s.words.word p = false

theorem CleanFrom.mono {m n : Nat} (h : s.CleanFrom m) (hmn : m ≤ n) :
    s.CleanFrom n :=
  fun p hp => h p (Nat.le_trans (Nat.mul_le_mul_right _ hmn) hp)

theorem Puts.clean {n : Nat} (h : s.Puts i v t) (hs : s.CleanFrom n)
    (hi : i < n) : t.CleanFrom n := by
  intro p hp
  have hbelow : (i + 1) * s.width ≤ n * s.width := Nat.mul_le_mul_right _ hi
  rw [Nat.succ_mul] at hbelow
  rw [h.width] at hp
  rw [h.row, if_neg (by omega)]
  exact hs p hp

/-! ## Changes -/

/-- The words can be changed. -/
def Owned (s : Sequence) : Prop := ∃ words, s.words = .owned words

theorem bitRow_owned {words : Array UInt64} (h : s.words = .owned words) :
    bitRow s.words.word = storedRow words := by
  rw [h]
  rfl

/-- So many words have room for the window of each of `n` numbers. -/
theorem window_le (width : Nat) {n : Nat} (hi : i < n) :
    i * width + width ≤ Word.width * wordsFor (n * width) := by
  have hnext : (i + 1) * width ≤ n * width := Nat.mul_le_mul_right _ hi
  rw [Nat.succ_mul] at hnext
  rw [wordsFor, Word.width]
  omega

theorem append_of_not_fits (hs : s.Owned) (hv : ¬ v.toNat < capacity s.width) :
    s.append v = .error (.valueTooLarge v s.width) := by
  obtain ⟨words, hwords⟩ := hs
  obtain ⟨_, width, size, _, _⟩ := s
  dsimp only at hwords hv
  subst hwords
  simp only [append, fit, if_neg hv]
  rfl

/-- Without room for one number more the program stops. -/
theorem append_of_not_hasRoom (hs : s.Owned) (hv : v.toNat < capacity s.width)
    (hroom : ¬ s.HasRoom) : s.append v = .error .overflow := by
  obtain ⟨words, hwords⟩ := hs
  obtain ⟨_, width, size, _, _⟩ := s
  dsimp only at hwords hv
  subst hwords
  simp only [append, fit, if_pos hv, if_neg hroom]
  rfl

/-- The words of a sequence that has taken one number more. -/
theorem append_owned {words : Array UInt64} (hwords : s.words = .owned words)
    (hv : v.toNat < capacity s.width) (hroom : s.HasRoom) :
    ∃ t, s.append v = .ok t ∧ t.width = s.width ∧ t.size = s.size + 1 ∧
      t.words = .owned
        (put (grow words (wordsFor ((s.size + 1) * s.width))) s.width
        (s.size * s.width) v) := by
  obtain ⟨_, width, size, _, _⟩ := s
  dsimp only at hwords hv
  subst hwords
  simp only [append, fit, if_pos hv, if_pos hroom]
  exact ⟨_, rfl, rfl, rfl, rfl⟩

/-- Appending writes behind the last number. -/
theorem append_of_fits (hs : s.Owned) (hv : v.toNat < capacity s.width)
    (hroom : s.HasRoom) :
    ∃ t, s.append v = .ok t ∧ t.Owned ∧ t.size = s.size + 1 ∧
      s.Puts s.size v t := by
  obtain ⟨words, hwords⟩ := hs
  obtain ⟨t, happend, hwidth, hsize, hput⟩ := append_owned hwords hv hroom
  refine ⟨t, happend, ⟨_, hput⟩, hsize, hwidth, hv, fun p => ?_⟩
  have hlast := window_le s.width s.size.lt_succ_self
  rw [← size_grow hwords] at hlast
  rw [bitRow_owned hput, bitRow_owned hwords, storedRow_put s.width_le hv hlast,
    grow, storedRow_append_zeros]

theorem fits_of_fit {v : UInt64} {u : Unit} (h : s.fit v = .ok u) :
    v.toNat < capacity s.width := by
  rw [fit] at h
  split at h
  · assumption
  · cases h

/-- What is appended to has words of its own, room for the value in its width
and room for one number more. -/
theorem append_eq_ok (h : s.append v = .ok t) :
    s.Owned ∧ v.toNat < capacity s.width ∧ s.HasRoom ∧
      t.Owned ∧ t.width = s.width ∧ t.size = s.size + 1 := by
  rw [append] at h
  split at h
  · cases h
  · next words hwords =>
      obtain ⟨_, hfit, h⟩ := bind_eq_ok.mp h
      split at h
      · next hroom =>
          cases h
          exact ⟨⟨words, hwords⟩, fits_of_fit hfit, hroom, ⟨_, rfl⟩, rfl, rfl⟩
      · cases h

theorem set_of_size_le (h : s.size ≤ i) :
    s.set i v = .error (.outOfRange i s.size) :=
  if_neg (Nat.not_lt.mpr h)

theorem set_of_not_fits (h : i < s.size) (hv : ¬ v.toNat < capacity s.width) :
    s.set i v = .error (.valueTooLarge v s.width) := by
  rw [set, if_pos h, fit, if_neg hv]
  rfl

theorem set_of_fits (hs : s.Owned) (h : i < s.size)
    (hv : v.toNat < capacity s.width) :
    ∃ t, s.set i v = .ok t ∧ t.Owned ∧ t.size = s.size ∧ s.Puts i v t := by
  obtain ⟨words, hwords⟩ := hs
  have hset : ∃ t, s.set i v = .ok t ∧ t.width = s.width ∧ t.size = s.size ∧
      t.words = .owned (put words s.width (i * s.width) v) := by
    rw [set, if_pos h, fit, if_pos hv]
    dsimp only [bind, Except.bind]
    split
    · next words' hwords' =>
        cases hwords.symm.trans hwords'
        exact ⟨_, rfl, rfl, rfl, rfl⟩
    · next hview => cases hwords.symm.trans hview
  obtain ⟨t, hset, hwidth, hsize, hput⟩ := hset
  refine ⟨t, hset, ⟨_, hput⟩, hsize, hwidth, hv, fun p => ?_⟩
  have hwindow := window_le s.width h
  rw [← size_owned hwords] at hwindow
  rw [bitRow_owned hput, bitRow_owned hwords,
    storedRow_put s.width_le hv hwindow]

/-- What is changed has words of its own, that number and room for the value in
its width, and it keeps its width and its size. -/
theorem set_eq_ok (h : s.set i v = .ok t) :
    i < s.size ∧ s.Owned ∧ v.toNat < capacity s.width ∧
    t.width = s.width ∧ t.size = s.size := by
  rw [set] at h
  split at h
  · next hi =>
      obtain ⟨_, hfit, h⟩ := bind_eq_ok.mp h
      split at h
      · next words hwords =>
          cases h
          exact ⟨hi, ⟨words, hwords⟩, fits_of_fit hfit, rfl, rfl⟩
      · cases h
  · cases h

/-! ## Lists -/

/-- The numbers are those of the list, and no bit is set behind them. -/
structure Holds (s : Sequence) (values : List UInt64) : Prop where
  owned : s.Owned
  toList : s.toList = values
  clean : s.CleanFrom s.size

theorem Holds.size (h : s.Holds values) : s.size = values.length := by
  rw [← h.toList, Sequence.toList, List.length_map, List.length_range]

theorem Holds.value (h : s.Holds values) (hi : i < values.length) :
    s.value i = values[i] := by
  simp [← h.toList, Sequence.toList]

theorem holds_of_value (howned : s.Owned) (hsize : s.size = values.length)
    (hvalue : ∀ i (h : i < values.length), s.value i = values[i])
    (hclean : s.CleanFrom s.size) :
    s.Holds values := by
  refine ⟨howned, List.ext_getElem ?_ fun i _ hi => ?_, hclean⟩
  · rw [Sequence.toList, List.length_map, List.length_range, hsize]
  · rw [← hvalue i hi]
    simp [Sequence.toList]

theorem holds_create {width : Nat} (h : width ≤ Word.width) :
    ∃ s, create width = .ok s ∧ s.width = width ∧ s.Holds [] := by
  rw [create, dif_pos h]
  exact ⟨_, rfl, rfl, ⟨_, rfl⟩, rfl, fun p _ =>
    storedRow_of_size_le (Nat.zero_le p)⟩

theorem holds_ofList (values : List UInt64) : (ofList values).Holds values := by
  refine ⟨⟨_, rfl⟩, toList_ofList values, fun p hp => ?_⟩
  rcases Nat.eq_zero_or_pos (ofList values).width with hzero | hpos
  · have hnone : (ofList values).words.size ≤ p / Word.width := by
      rw [(ofList values).size_words, hzero, Nat.mul_zero]
      exact Nat.zero_le _
    rw [bitRow, Words.word_of_size_le hnone, Word.bit_zero]
  · have hpast : values.length ≤ p / (ofList values).width :=
      (Nat.le_div_iff_mul_le hpos).mpr hp
    rw [← Nat.div_add_mod' p (ofList values).width,
      bitRow_ofList (Nat.mod_lt _ hpos), List.getD_eq_default _ _ hpast,
      Word.bit_zero]

theorem Holds.append (h : s.Holds values) (hv : v.toNat < capacity s.width)
    (hroom : s.HasRoom) :
    ∃ t, s.append v = .ok t ∧ t.width = s.width ∧ t.Holds (values ++ [v]) := by
  obtain ⟨t, happend, howned, hsize, hput⟩ := append_of_fits h.owned hv hroom
  refine ⟨t, happend, hput.width, holds_of_value howned ?_ (fun i hi => ?_) ?_⟩
  · rw [hsize, h.size, List.length_append, List.length_singleton]
  · rw [hput.value, h.size]
    by_cases hlt : i < values.length
    · rw [if_neg (Nat.ne_of_lt hlt), h.value hlt, List.getElem_append_left hlt]
    · have hlast : i = values.length := by
        rw [List.length_append, List.length_singleton] at hi
        omega
      rw [if_pos hlast, List.getElem_concat_length hlast]
  · rw [hsize]
    exact hput.clean (h.clean.mono (Nat.le_succ _)) (Nat.lt_succ_self _)

theorem Holds.set (h : s.Holds values) (hi : i < values.length)
    (hv : v.toNat < capacity s.width) :
    ∃ t, s.set i v = .ok t ∧ t.width = s.width ∧ t.Holds (values.set i v) := by
  obtain ⟨t, hset, howned, hsize, hput⟩ :=
    set_of_fits h.owned (by rwa [h.size]) hv
  refine ⟨t, hset, hput.width, holds_of_value howned ?_ (fun j hj => ?_) ?_⟩
  · rw [hsize, h.size, List.length_set]
  · rw [hput.value, List.getElem_set]
    by_cases hji : j = i
    · rw [if_pos hji, if_pos hji.symm]
    · rw [if_neg hji, if_neg (Ne.symm hji), h.value]
  · rw [hsize]
    exact hput.clean h.clean (by rwa [h.size])

/-! ## Reading back -/

/-- Where no stray bit is set, words are written as they are. -/
theorem CleanFrom.word (h : s.CleanFrom s.size) (i : Nat) :
    s.word i = s.words.word i := by
  refine Word.ext fun k hk => ?_
  rw [Sequence.word, Word.bit_low]
  by_cases hlt : k < s.size * s.width - Word.width * i
  · rw [decide_eq_true hlt, Bool.true_and]
  · have hrow := h (Word.width * i + k) (by omega)
    rw [TripleStore.bitRow_word _ _ hk] at hrow
    rw [hrow, Bool.and_false]

/-- What is read back has the same words. -/
theorem Holds.reread (h : s.Holds values) (hportable : s.Portable) :
    ∃ t, ofBytes s.toBytes = .ok t ∧ (t == s) = true := by
  obtain ⟨t, htrims, hread⟩ := ofBytes_toBytes hportable
  have hcopy : t.Copy s :=
    ⟨htrims.width.symm, htrims.size.symm, fun i =>
      (htrims.word i).symm.trans (h.clean.word i)⟩
  exact ⟨t, hread, hcopy.beq⟩

theorem Holds.get (h : s.Holds values) (hi : i < values.length) :
    s.get i = .ok values[i] := by
  rw [Sequence.get, h.size, if_pos hi, h.value hi]

theorem Holds.get_of_length_le (h : s.Holds values) (hi : values.length ≤ i) :
    s.get i = .error (.outOfRange i values.length) := by
  rw [Sequence.get, h.size, if_neg (Nat.not_lt.mpr hi)]

end TripleStore.Sequence
