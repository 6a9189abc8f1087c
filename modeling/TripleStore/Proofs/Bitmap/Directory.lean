import TripleStore.Proofs.Bits.Row
import TripleStore.Proofs.Halving

/-!
# The directory is exact

What the directory keeps is stated once, as `Directory.Exact`: the ones before
each block and each word, and for every 512th one the least block that has so
many ones before it. Building keeps the part of it that concerns the blocks seen
so far (`Directory.Covers`), and ranking and selecting need nothing else.
-/

namespace TripleStore

/-! ## Nine bits for each count -/

namespace Block

/-- The first `n` counts, packed. -/
def packed (count : Nat → Nat) (n : Nat) : UInt64 :=
  (List.range n).foldl
    (fun packed j => packed ||| ((count (j + 1)).toUInt64 <<< (9 * j).toUInt64)) 0

theorem packed_succ (count : Nat → Nat) (n : Nat) :
    packed count (n + 1) =
      packed count n ||| ((count (n + 1)).toUInt64 <<< (9 * n).toUInt64) := by
  simp [packed, List.range_succ]

/-- Bit `i` belongs to the count number `i / 9`, if that is packed yet. -/
theorem bit_packed {count : Nat → Nat} (hcount : ∀ j ≤ 7, count j < 512)
    {n i : Nat} (hn : n ≤ 7) (hi : i < 63) :
    Word.bit (packed count n) i = (decide (i / 9 < n) &&
      (count (i / 9 + 1)).testBit (i % 9)) := by
  induction n with
  | zero => simp [packed]
  | succ n ih =>
      have hwidth : 9 * n < Word.width := by
        rw [Word.width]
        omega
      have hword : i < Word.width := by
        rw [Word.width]
        omega
      rw [packed_succ, Word.bit_or, ih (by omega), Word.bit_shiftLeft _ hwidth,
        Word.bit_toUInt64]
      by_cases hlow : i < 9 * n
      · have hdiv : i / 9 < n := by omega
        simp [hlow, hdiv, Nat.lt_succ_of_lt hdiv]
      · have hdiv : ¬ i / 9 < n := by omega
        by_cases hhigh : i < 9 * n + 9
        · have heq : i / 9 = n := by omega
          have hmod : i - 9 * n = i % 9 := by omega
          have hsub : i % 9 < Word.width := by
            rw [Word.width]
            omega
          simp [hlow, heq, hmod, hword, hsub]
        · have hne : ¬ i / 9 < n + 1 := by omega
          have hzero : (count (n + 1)).testBit (i - 9 * n) = false :=
            Nat.testBit_lt_two_pow (Nat.lt_of_lt_of_le (hcount _ (by omega))
              (Nat.pow_le_pow_right Nat.two_pos (show 9 ≤ i - 9 * n by omega)))
          simp [hdiv, hne, hzero]

/-- Unpacking gives back the counts that were packed. -/
theorem count_pack (before : Nat) {count : Nat → Nat}
    (hcount : ∀ j ≤ 7, count j < 512) {j : Nat} (hj : j < 7) :
    (Block.mk before (pack count)).count (j + 1) = count (j + 1) := by
  have hpack : pack count = packed count 7 := rfl
  have hwidth : 9 * j < Word.width := by
    rw [Word.width]
    omega
  apply Nat.eq_of_testBit_eq
  intro i
  rw [Block.count, ← Word.bit_eq_testBit, Word.bit_and,
    Word.bit_shiftRight _ hwidth, hpack]
  have hmask : Word.bit 0x1FF i = decide (i < 9) := by
    rw [Word.bit_eq_testBit]
    exact Nat.testBit_two_pow_sub_one 9 i
  rw [hmask]
  by_cases hi : i < 9
  · have hdiv : (9 * j + i) / 9 = j := by omega
    have hmod : (9 * j + i) % 9 = i := by omega
    rw [bit_packed hcount (Nat.le_refl 7) (by omega), hdiv, hmod]
    simp [hi, hj]
  · have hzero : (count (j + 1)).testBit i = false :=
      Nat.testBit_lt_two_pow (Nat.lt_of_lt_of_le (hcount _ (by omega))
        (Nat.pow_le_pow_right Nat.two_pos (show 9 ≤ i by omega)))
    simp [hi, hzero]

end Block

namespace Directory

/-! ## What a block counts -/

/-- The ones in each word of block `i`. -/
def wordCounts (word : Nat → UInt64) (i : Nat) : List Nat :=
  (List.range Block.words).map fun j => Word.ones (word (i * Block.words + j))

theorem total_append (a b : List Nat) : total (a ++ b) = total a + total b := by
  induction a with
  | nil => simp [total]
  | cons x a ih =>
      rw [total] at ih ⊢
      simp only [List.cons_append, List.foldr_cons]
      rw [ih]
      exact (Nat.add_assoc ..).symm

theorem take_wordCounts (word : Nat → UInt64) (i : Nat) {j : Nat}
    (hj : j ≤ Block.words) :
    (wordCounts word i).take j =
      (List.range j).map fun j => Word.ones (word (i * Block.words + j)) := by
  rw [wordCounts, ← List.map_take, List.take_range, Nat.min_eq_left hj]

/-- Where word `j` of block `i` begins. -/
theorem word_start (i j : Nat) :
    Block.bits * i + Word.width * j = Word.width * (i * Block.words + j) := by
  rw [Block.bits, Nat.mul_add, Nat.mul_comm i, Nat.mul_comm Block.words,
    Nat.mul_assoc]

/-- The first `j` words of block `i` hold what the row has more at their end
than at the start of the block. -/
theorem countOnes_add_total (word : Nat → UInt64) (i : Nat) {j : Nat}
    (hj : j ≤ Block.words) :
    countOnes (bitRow word) (Block.bits * i) +
      total ((wordCounts word i).take j) =
      countOnes (bitRow word) (Block.bits * i + Word.width * j) := by
  rw [take_wordCounts word i hj]
  clear hj
  induction j with
  | zero => simp [total]
  | succ j ih =>
      rw [word_start, ← Nat.add_assoc, countOnes_bitRow_succ, ← word_start,
        ← ih, List.range_succ, List.map_append, total_append, ← Nat.add_assoc]
      rfl

theorem total_wordCounts (word : Nat → UInt64) (i : Nat) :
    countOnes (bitRow word) (Block.bits * i) + total (wordCounts word i) =
      countOnes (bitRow word) (Block.bits * (i + 1)) := by
  have h := countOnes_add_total word i (Nat.le_refl Block.words)
  rwa [List.take_of_length_le (by simp [wordCounts]),
    Nat.mul_comm Word.width] at h

theorem total_take_lt (word : Nat → UInt64) (i : Nat) {j : Nat} (hj : j ≤ 7) :
    total ((wordCounts word i).take j) < 512 := by
  have h := countOnes_add_total word i (j := j) (by rw [Block.words]; omega)
  have hadd := countOnes_add (bitRow word) (Block.bits * i) (Word.width * j)
  have hle := countOnes_le (fun k => bitRow word (Block.bits * i + k))
    (Word.width * j)
  rw [Word.width] at *
  omega

/-- A block that is packed from its words counts them. -/
theorem count_pack_wordCounts (word : Nat → UInt64) (i before : Nat) {j : Nat}
    (hj : j < Block.words) :
    (Block.mk before (Block.pack fun j => total
      ((wordCounts word i).take j))).count j =
      total ((wordCounts word i).take j) := by
  cases j with
  | zero => simp [Block.count, total]
  | succ j =>
      exact Block.count_pack before (fun j hj => total_take_lt word i hj)
        (Nat.lt_of_succ_lt_succ hj)

/-! ## Building -/

/-- What a directory knows when the first `n` blocks of a row have been added. -/
structure Covers (row : Nat → Bool) (d : Directory) (n : Nat) : Prop where
  ones : d.ones = countOnes row (Block.bits * n)
  size_blocks : d.blocks.size = n
  before : ∀ i < n, (d.block i).before = countOnes row (Block.bits * i)
  count : ∀ i < n, ∀ j < Block.words,
    countOnes row (Block.bits * i) + (d.block i).count j =
      countOnes row (Block.bits * i + Word.width * j)
  /-- There is a sample for every multiple of the step that some block reaches. -/
  lt_samples : ∀ s, s < d.samples.size ↔
    ∃ i < n, sampleStep * s ≤ countOnes row (Block.bits * i)
  /-- The block that a sample names has enough ones before it, and is the first. -/
  sample : ∀ s < d.samples.size,
    (d.samples.getD s 0).toNat < n ∧
      sampleStep * s ≤ countOnes row (Block.bits * (d.samples.getD s 0).toNat) ∧
      ∀ i < (d.samples.getD s 0).toNat,
        countOnes row (Block.bits * i) < sampleStep * s

theorem covers_empty (row : Nat → Bool) : Covers row empty 0 where
  ones := rfl
  size_blocks := rfl
  before := by simp
  count := by simp
  lt_samples := by simp [empty]
  sample := by simp [empty]

theorem block_push_lt (d : Directory) (b : Block) {i : Nat}
    (h : i < d.blocks.size) :
    (d.blocks.push b).getD i ⟨0, 0⟩ = d.blocks.getD i ⟨0, 0⟩ := by
  simp [Array.getD, h, Nat.lt_succ_of_lt h, Array.getElem_push_lt h]

theorem block_push_size (d : Directory) (b : Block) :
    (d.blocks.push b).getD d.blocks.size ⟨0, 0⟩ = b := by
  simp [Array.getD]

/-- The ones before each block are known again when a block that has them
follows. -/
theorem before_push {row : Nat → Bool} {d : Directory} {n : Nat}
    (h : Covers row d n) {b : Block} (hb : b.before = d.ones) {i : Nat}
    (hi : i ≤ n) :
    ((d.blocks.push b).getD i ⟨0, 0⟩).before =
      countOnes row (Block.bits * i) := by
  rcases Nat.lt_or_eq_of_le hi with hi | rfl
  · rw [block_push_lt d b (h.size_blocks ▸ hi)]
    exact h.before i hi
  · have hlast := block_push_size d b
    rw [h.size_blocks] at hlast
    rw [hlast, hb, h.ones]

theorem size_sample (samples : Array UInt32) (total i : Nat) :
    (sample samples total i).size =
      max samples.size (total / sampleStep + 1) := by
  simp only [sample, Array.size_append, Array.size_replicate]
  omega

theorem getD_sample_lt {samples : Array UInt32} (total i : Nat) {s : Nat}
    (h : s < samples.size) :
    (sample samples total i).getD s 0 = samples.getD s 0 := by
  have hlt : s < (sample samples total i).size := by
    rw [size_sample]
    omega
  rw [Array.getD, Array.getD, dif_pos h, dif_pos hlt]
  exact Array.getElem_append_left h

theorem getD_sample_ge {samples : Array UInt32} {total i s : Nat}
    (h : samples.size ≤ s) (hs : s < (sample samples total i).size) :
    (sample samples total i).getD s 0 = i.toUInt32 := by
  rw [size_sample] at hs
  rw [Array.getD_eq_getD_getElem?, sample, Array.getElem?_append_right h,
    Array.getElem?_replicate, if_pos (by omega), Option.getD_some]

/-- A block that is added with the ones before it gets the samples that it is
the first to reach. -/
theorem sample_step {row : Nat → Bool} {d : Directory} {n : Nat}
    (h : Covers row d n) (hn : n < 2 ^ 32) :
    (∀ s, s < (sample d.samples d.ones n).size ↔
      ∃ i < n + 1, sampleStep * s ≤ countOnes row (Block.bits * i)) ∧
    ∀ s < (sample d.samples d.ones n).size,
      ((sample d.samples d.ones n).getD s 0).toNat < n + 1 ∧
        sampleStep * s ≤ countOnes row
          (Block.bits * ((sample d.samples d.ones n).getD s 0).toNat) ∧
        ∀ i < ((sample d.samples d.ones n).getD s 0).toNat,
          countOnes row (Block.bits * i) < sampleStep * s := by
  have hreach : ∀ s, s < (sample d.samples d.ones n).size ↔
      s < d.samples.size ∨ sampleStep * s ≤ countOnes row (Block.bits * n) := by
    intro s
    rw [size_sample, h.ones, sampleStep]
    omega
  constructor
  · intro s
    rw [hreach, h.lt_samples]
    constructor
    · rintro (⟨i, hi, hle⟩ | hle)
      · exact ⟨i, by omega, hle⟩
      · exact ⟨n, by omega, hle⟩
    · rintro ⟨i, hi, hle⟩
      rcases Nat.lt_succ_iff_lt_or_eq.mp hi with hi | rfl
      · exact Or.inl ⟨i, hi, hle⟩
      · exact Or.inr hle
  · intro s hs
    by_cases hold : s < d.samples.size
    · obtain ⟨h₁, h₂, h₃⟩ := h.sample s hold
      rw [getD_sample_lt _ _ hold]
      exact ⟨by omega, h₂, h₃⟩
    · -- a sample that is new names block `n`, and it would be old if a block
      -- before reached it
      have hnat : (n.toUInt32).toNat = n := UInt32.toNat_ofNat_of_lt' hn
      rw [getD_sample_ge (Nat.le_of_not_lt hold) hs, hnat]
      refine ⟨by omega, ((hreach s).mp hs).resolve_left hold, fun i hi => ?_⟩
      by_contra hge
      exact hold ((h.lt_samples s).mpr ⟨i, hi, Nat.le_of_not_lt hge⟩)

theorem covers_addBlock {word : Nat → UInt64} {d : Directory} {n : Nat}
    (h : Covers (bitRow word) d n) (hn : n < 2 ^ 32) :
    Covers (bitRow word) (d.addBlock n (wordCounts word n)) (n + 1) where
  ones := by
    rw [← total_wordCounts, ← h.ones]
    rfl
  size_blocks := by
    rw [addBlock, Array.size_push, h.size_blocks]
  before := fun _ hi => before_push h rfl (Nat.le_of_lt_succ hi)
  count := by
    intro i hi j hj
    rcases Nat.lt_succ_iff_lt_or_eq.mp hi with hi | rfl
    · rw [← h.count i hi j hj]
      exact congrArg (fun b => _ + Block.count b j)
        (block_push_lt d _ (h.size_blocks ▸ hi))
    · rw [← countOnes_add_total word i (Nat.le_of_lt hj)]
      congr 1
      rw [← count_pack_wordCounts word i d.ones hj, ← h.size_blocks]
      exact congrArg (Block.count · j) (block_push_size d _)
  lt_samples := (sample_step h hn).1
  sample := (sample_step h hn).2

/-- What a finished directory knows of a row of `n` blocks. -/
structure Exact (row : Nat → Bool) (d : Directory) (n : Nat) : Prop where
  ones : d.ones = countOnes row (Block.bits * n)
  size_blocks : d.blocks.size = n + 1
  before : ∀ i ≤ n, (d.block i).before = countOnes row (Block.bits * i)
  count : ∀ i < n, ∀ j < Block.words,
    countOnes row (Block.bits * i) + (d.block i).count j =
      countOnes row (Block.bits * i + Word.width * j)
  lt_samples : ∀ s, s < d.samples.size ↔
    sampleStep * s ≤ countOnes row (Block.bits * n)
  sample : ∀ s < d.samples.size,
    (d.samples.getD s 0).toNat ≤ n ∧
      sampleStep * s ≤ countOnes row (Block.bits * (d.samples.getD s 0).toNat) ∧
      ∀ i < (d.samples.getD s 0).toNat,
        countOnes row (Block.bits * i) < sampleStep * s

theorem exact_close {row : Nat → Bool} {d : Directory} {n : Nat}
    (h : Covers row d n) (hn : n < 2 ^ 32) : Exact row d.close n where
  ones := h.ones
  size_blocks := by
    rw [close, Array.size_push, h.size_blocks]
  before := fun _ hi => before_push h rfl hi
  count := by
    intro i hi j hj
    rw [← h.count i hi j hj]
    exact congrArg (fun b => _ + Block.count b j)
      (block_push_lt d _ (h.size_blocks ▸ hi))
  lt_samples := by
    intro s
    rw [close, h.size_blocks, (sample_step h hn).1]
    constructor
    · rintro ⟨i, hi, hle⟩
      exact Nat.le_trans hle
        (countOnes_mono row (Nat.mul_le_mul_left _ (by omega)))
    · intro hle
      exact ⟨n, by omega, hle⟩
  sample := by
    rw [close, h.size_blocks]
    intro s hs
    obtain ⟨h₁, h₂⟩ := (sample_step h hn).2 s hs
    exact ⟨Nat.le_of_lt_succ h₁, h₂⟩

theorem covers_foldl (word : Nat → UInt64) {n : Nat} (hn : n < 2 ^ 32) :
    Covers (bitRow word)
      ((List.range n).foldl (fun d i => d.addBlock i (wordCounts word i)) empty)
      n := by
  induction n with
  | zero => exact covers_empty _
  | succ n ih =>
      rw [List.range_succ, List.foldl_append]
      exact covers_addBlock (ih (by omega)) (by omega)

/-- The directory that is built of a row of bits is exact, if its blocks can be
numbered. -/
theorem exact_build (word : Nat → UInt64) {size : Nat}
    (h : blocksFor size < 2 ^ 32) :
    Exact (bitRow word) (build word size) (blocksFor size) :=
  exact_close (covers_foldl word h) h

/-! ## Ranking -/

theorem size_le_blocksFor (size : Nat) :
    size ≤ Block.bits * blocksFor size := by
  rw [blocksFor, Block.bits, Block.words, Word.width]
  omega

/-- Position `i`, read as a block, a word of it and a bit of that. -/
theorem position_split (i : Nat) :
    Block.bits * (i / Block.bits) + Word.width * (i % Block.bits / Word.width) +
      i % Word.width = i := by
  rw [Block.bits, Block.words, Word.width]
  omega

/-- A rank is what the directory and one word add up to. -/
theorem rank_eq {word : Nat → UInt64} {d : Directory} {n i : Nat}
    (h : Exact (bitRow word) d n) (hi : i ≤ Block.bits * n) :
    d.rank word i = countOnes (bitRow word) i := by
  have hbit : i % Word.width ≤ Word.width :=
    Nat.le_of_lt (Nat.mod_lt _ (by decide))
  have hsplit := countOnes_bitRow_word word
    (i / Block.bits * Block.words + i % Block.bits / Word.width) hbit
  rw [← word_start, position_split] at hsplit
  have hblock : i / Block.bits ≤ n := by
    rw [Block.bits, Block.words, Word.width] at *
    omega
  rw [rank, hsplit, h.before _ hblock]
  rcases Nat.lt_or_eq_of_le hblock with hlt | heq
  · rw [← h.count _ hlt (i % Block.bits / Word.width)]
    rw [Block.bits, Block.words, Word.width]
    omega
  · -- only the end of the last block lies in the closing block, and nothing
    -- is read there
    have hword : i % Block.bits / Word.width = 0 := by
      rw [Block.bits, Block.words, Word.width] at *
      omega
    rw [hword]
    rfl

/-! ## Selecting -/

/-- There is a sample for every one, and the samples leave a range of blocks
that has the one behind the block of the one. -/
theorem searchRange_spec {row : Nat → Bool} {d : Directory} {n b k : Nat}
    (h : Exact row d n) (hb : b < n)
    (hbefore : countOnes row (Block.bits * b) < k)
    (hafter : k ≤ countOnes row (Block.bits * (b + 1))) :
    (k - 1) / sampleStep < d.samples.size ∧ (d.searchRange k).1 ≤ b + 1 ∧
      b + 1 < (d.searchRange k).2 ∧ (d.searchRange k).2 ≤ n + 1 := by
  have hmono : ∀ {i j : Nat}, i ≤ j →
      countOnes row (Block.bits * i) ≤ countOnes row (Block.bits * j) :=
    fun hij => countOnes_mono row (Nat.mul_le_mul_left _ hij)
  have hend := hmono (show b + 1 ≤ n by omega)
  -- the sample at hand stands at or before the block that is looked for
  have hlow : (k - 1) / sampleStep < d.samples.size := by
    rw [h.lt_samples, sampleStep]
    omega
  obtain ⟨-, -, hfirst⟩ := h.sample _ hlow
  have hloBlock : (d.searchRange k).1 ≤ b + 1 := by
    by_contra hgt
    have := hfirst (b + 1) (by
      simp only [searchRange] at hgt
      omega)
    rw [sampleStep] at this
    omega
  -- and the next one, if there is one, does not stand before it
  have hhiBlock : b + 1 < (d.searchRange k).2 := by
    simp only [searchRange]
    split
    · next next hnext =>
        obtain ⟨hlt, hval⟩ := Array.getElem?_eq_some_iff.mp hnext
        obtain ⟨-, hreach, -⟩ := h.sample _ hlt
        have hget : d.samples.getD ((k - 1) / sampleStep + 1) 0 = next := by
          rw [Array.getD, dif_pos hlt]
          exact hval
        rw [hget] at hreach
        rw [h.size_blocks, Nat.lt_min]
        refine ⟨?_, by omega⟩
        by_contra hgt
        have := hmono (show next.toNat ≤ b by omega)
        rw [sampleStep] at *
        omega
    · rw [h.size_blocks]
      omega
  have hhi : (d.searchRange k).2 ≤ n + 1 := by
    simp only [searchRange]
    split
    · rw [h.size_blocks]
      exact Nat.min_le_right _ _
    · exact Nat.le_of_eq h.size_blocks
  exact ⟨hlow, hloBlock, hhiBlock, hhi⟩

/-- The first block with `k` ones before it is found between the samples. -/
theorem firstBlock_eq {row : Nat → Bool} {d : Directory} {n b k : Nat}
    (h : Exact row d n) (hb : b < n)
    (hbefore : countOnes row (Block.bits * b) < k)
    (hafter : k ≤ countOnes row (Block.bits * (b + 1))) :
    d.firstBlock k (d.searchRange k).1 (d.searchRange k).2 = b + 1 := by
  have hmono : ∀ {i j : Nat}, i ≤ j →
      countOnes row (Block.bits * i) ≤ countOnes row (Block.bits * j) :=
    fun hij => countOnes_mono row (Nat.mul_le_mul_left _ hij)
  obtain ⟨-, hloBlock, hhiBlock, hhi⟩ := searchRange_spec h hb hbefore hafter
  rw [firstBlock_eq_halve]
  apply halve_eq hloBlock (Nat.le_of_lt hhiBlock)
  · intro i _ hi
    rw [h.before i (by omega)]
    have := hmono (show i ≤ b by omega)
    exact decide_eq_true (by omega)
  · intro i hi hlt
    rw [h.before i (by omega)]
    have := hmono hi
    exact decide_eq_false (by omega)

theorem length_takeWhile_range {p : Nat → Bool} {n j : Nat} (hj : j ≤ n)
    (hbefore : ∀ i < j, p i = true) (hat : j < n → p j = false) :
    ((List.range n).takeWhile p).length = j := by
  obtain ⟨m, rfl⟩ := Nat.exists_eq_add_of_le hj
  rw [List.range_add, List.takeWhile_append_of_pos fun i hi =>
    hbefore i (List.mem_range.mp hi)]
  cases m with
  | zero => simp
  | succ m =>
      rw [List.range_succ_eq_map, List.map_cons, Nat.add_zero,
        List.takeWhile_cons_of_neg (by simp [hat (by omega)])]
      simp

/-- The last word of a block with fewer than `k` ones before it in the block. -/
theorem wordOf_eq {b : Block} {j k : Nat} (hj : j < Block.words)
    (hbefore : ∀ i ≤ j, b.count i < k)
    (hafter : j + 1 < Block.words → k ≤ b.count (j + 1)) :
    b.wordOf k = j := by
  apply length_takeWhile_range (show j ≤ Block.words - 1 by omega)
  · intro i hi
    exact decide_eq_true (hbefore (i + 1) hi)
  · intro hlast
    exact decide_eq_false (Nat.not_lt.mpr (hafter (by omega)))

/-- A count that starts below `k` and ends at `k` or above passes `k` in one
step. -/
theorem exists_step {f : Nat → Nat} {k : Nat} {n : Nat} (hzero : f 0 < k)
    (hend : k ≤ f n) :
    ∃ b < n, f b < k ∧ k ≤ f (b + 1) := by
  induction n with
  | zero => omega
  | succ n ih =>
      by_cases hn : k ≤ f n
      · obtain ⟨b, hb, h⟩ := ih hn
        exact ⟨b, by omega, h⟩
      · exact ⟨n, by omega, by omega, hend⟩

/-- The one number `k` stands in word `j` of block `b`, and the directory leads
there. -/
structure Leads (word : Nat → UInt64) (d : Directory) (k b j : Nat) : Prop where
  block_lt : countOnes (bitRow word) (Block.bits * b) < k
  block_le : k ≤ countOnes (bitRow word) (Block.bits * (b + 1))
  firstBlock : d.firstBlock k (d.searchRange k).1 (d.searchRange k).2 = b + 1
  before : (d.block b).before < k
  wordOf : (d.block b).wordOf (k - (d.block b).before) = j
  count : (d.block b).count j < k - (d.block b).before
  total : (d.block b).before + (d.block b).count j =
    countOnes (bitRow word) (Word.width * (b * Block.words + j))
  ones : k - (d.block b).before - (d.block b).count j ≤
    Word.ones (word (b * Block.words + j))

/-- The block is the last with fewer than `k` ones before it. -/
theorem Leads.blockOf {word : Nat → UInt64} {d : Directory} {k b j : Nat}
    (h : Leads word d k b j) :
    d.blockOf k = b := by
  rw [Directory.blockOf, h.firstBlock]
  rfl

/-- There is a block where the count passes `k`, and a word of it. -/
theorem exists_leads {word : Nat → UInt64} {d : Directory} {n k : Nat}
    (h : Exact (bitRow word) d n) (hpos : 0 < k) (hk : k ≤ d.ones) :
    ∃ b < n, ∃ j < Block.words, Leads word d k b j := by
  rw [h.ones] at hk
  -- the block where the count passes `k`, and then the word of it
  obtain ⟨b, hb, hbefore, hafter⟩ :=
    exists_step (f := fun b => countOnes (bitRow word) (Block.bits * b))
      (by simpa using hpos) hk
  obtain ⟨j, hj, hjbefore, hjafter⟩ :=
    exists_step (f := fun j =>
      countOnes (bitRow word) (Block.bits * b + Word.width * j))
      (n := Block.words) (by simpa using hbefore) (by
        rw [Nat.mul_comm Word.width]
        exact hafter)
  have hcount := h.count b hb
  have hword : (d.block b).wordOf (k - (d.block b).before) = j := by
    rw [h.before b (Nat.le_of_lt hb)]
    apply wordOf_eq hj
    · intro i hi
      have hle := countOnes_mono (bitRow word)
        (show Block.bits * b + Word.width * i ≤ Block.bits * b + Word.width * j from
          Nat.add_le_add_left (Nat.mul_le_mul_left _ hi) _)
      have := hcount i (by omega)
      omega
    · intro hlast
      have := hcount (j + 1) hlast
      omega
  -- what is left to count lies in word `j` of block `b`
  have hj' := hcount j hj
  rw [word_start, ← Nat.add_assoc, countOnes_bitRow_succ] at hjafter
  rw [word_start] at hjbefore hj'
  have hbefore' := h.before b (Nat.le_of_lt hb)
  exact ⟨b, hb, j, hj, {
    block_lt := hbefore
    block_le := hafter
    firstBlock := firstBlock_eq h hb hbefore hafter
    before := by omega
    wordOf := hword
    count := by omega
    total := by omega
    ones := by omega }⟩

/-- The one number `k` stands where the directory says: it is a one, and `k - 1`
ones stand before it. -/
theorem select_eq {word : Nat → UInt64} {d : Directory} {n k : Nat}
    (h : Exact (bitRow word) d n) (hpos : 0 < k) (hk : k ≤ d.ones) :
    bitRow word (d.select word k) = true ∧
    countOnes (bitRow word) (d.select word k) + 1 = k := by
  obtain ⟨b, hb, j, hj, hleads⟩ := exists_leads h hpos hk
  have hcount := hleads.count
  have hrest : k - (d.block b).before - (d.block b).count j - 1 <
      Word.ones (word (b * Block.words + j)) := by
    have := hleads.ones
    omega
  obtain ⟨hbit, hlt, hones⟩ := Word.select_spec hrest
  have hselect : d.select word k = Word.width * (b * Block.words + j) +
      Word.select (word (b * Block.words + j))
        (k - (d.block b).before - (d.block b).count j - 1) := by
    rw [select, hleads.blockOf, hleads.wordOf, ← word_start, Nat.mul_comm b,
      Nat.mul_comm j]
  rw [hselect]
  constructor
  · rw [bitRow_word _ _ hlt]
    exact hbit
  · have htotal := hleads.total
    rw [countOnes_bitRow_word _ _ (Nat.le_of_lt hlt),
      Word.onesBelow_eq_countOnes, hones]
    omega

end Directory

end TripleStore
