import TripleStore.Proofs.Bitmap.RankSelect
import TripleStore.Proofs.Halving

/-!
# Bitmaps with every access checked

Ranking and selecting once more, now in steps that give nothing as soon as a
word, a block or a sample is asked for that there is not, a difference would be
negative or a word has too few ones. In a word the one is found by taking those
below it away (`selectInWord`). If the words of a bitmap lie where they are said
to (`Words.Fits`), no check ever fails, and the result is the same
(`rankBefore_eq`, `select1_eq`).
-/

namespace TripleStore

/-- A view lies inside its backing. -/
def Words.Fits : Words → Prop
  | .owned _ => True
  | .view backing offset size => offset + 8 * size ≤ backing.size

namespace Checked

/-- Goes on only if the condition holds. -/
def demand (p : Prop) [Decidable p] : Option Unit := if p then some () else none

theorem demand_eq {p : Prop} [Decidable p] (h : p) : demand p = some () := if_pos h

/-! ## Words -/

def word : Words → Nat → Option UInt64
  | .owned words, i => words[i]?
  | .view backing offset size, i => do
    demand (i < size)
    demand (offset + 8 * i + 8 ≤ backing.size)
    return backing.wordAt (offset + 8 * i)

theorem word_eq {w : Words} (h : w.Fits) {i : Nat} (hi : i < w.size) :
    word w i = some (w.word i) := by
  cases w with
  | owned words =>
      change i < words.size at hi
      rw [word, Words.word, Array.getElem?_eq_getElem hi,
        Array.getD, dif_pos hi]
      rfl
  | view backing offset size =>
      change i < size at hi
      change offset + 8 * size ≤ backing.size at h
      rw [word, demand_eq hi, demand_eq (by omega), Words.word, if_pos hi]
      rfl

/-- A word of a bitmap without stray bits; behind the last word none is read. -/
def dataWord (b : Bitmap) (i : Nat) : Option UInt64 :=
  if i < wordsFor b.size then
    (word b.words i).map (Word.low · (b.size - Word.width * i))
  else some 0

theorem dataWord_eq {b : Bitmap} (h : b.words.Fits) (i : Nat) :
    dataWord b i = some (b.word i) := by
  unfold dataWord
  split
  · next hi =>
      rw [word_eq h (by rwa [b.size_words])]
      rfl
  · next hi =>
      have hend : b.size - Word.width * i = 0 := by
        rw [wordsFor] at hi
        rw [Word.width]
        omega
      rw [Bitmap.word, maskedWord, hend]
      exact congrArg some
        (Word.ext fun k _ => by simp [Word.bit_zero, Word.bit_low])

/-- Takes the lowest one away `k` times and looks where the lowest of the others
stands. Each time there has to be one, as nothing can be taken from 0. -/
def selectInWord (w : UInt64) : Nat → Option Nat
  | 0 => some (Word.lowest w)
  | k + 1 => do
    demand (w ≠ 0)
    selectInWord (w &&& (w - 1)) k

theorem selectInWord_spec {w : UInt64} {k : Nat} (h : k < Word.ones w) :
    ∃ i, selectInWord w k = some i ∧ Word.bit w i = true ∧
      countOnes (Word.bit w) i = k := by
  have hne : w ≠ 0 := Word.ne_zero_of_lt_ones h
  induction k generalizing w with
  | zero => exact ⟨Word.lowest w, rfl, Word.bit_lowest hne, Word.countOnes_lowest w⟩
  | succ k ih =>
      have hrest : k < Word.ones (w &&& (w - 1)) := by
        have hcount := Word.countOnes_and_pred hne Word.width
        rw [Word.ones_eq_countOnes] at h ⊢
        have hle := Bool.toNat_le (decide (Word.lowest w < Word.width))
        omega
      obtain ⟨i, hi, hbit, hbelow⟩ := ih hrest (Word.ne_zero_of_lt_ones hrest)
      rw [Word.bit_and_pred hne, Bool.and_eq_true, decide_eq_true_eq] at hbit
      -- the one that is found is not the lowest, and so it stands behind it
      have hbehind : Word.lowest w < i := by
        by_contra hnot
        have hlt : i < Word.lowest w := by omega
        rw [Word.bit_of_lt_lowest hlt] at hbit
        exact Bool.false_ne_true hbit.1
      refine ⟨i, ?_, hbit.1, ?_⟩
      · rw [selectInWord, demand_eq hne]
        exact hi
      · rw [Word.countOnes_and_pred hne, hbelow, decide_eq_true hbehind]
        rfl

/-- Taking ones away leads to the same one as the search for it. -/
theorem selectInWord_eq {w : UInt64} {k : Nat} (h : k < Word.ones w) :
    selectInWord w k = some (Word.select w k) := by
  obtain ⟨i, hi, hbit, hbelow⟩ := selectInWord_spec h
  obtain ⟨hbit', -, hbelow'⟩ := Word.select_spec h
  rw [hi, eq_of_countOnes_eq hbit hbit' (hbelow.trans hbelow'.symm)]

/-! ## Halving -/

/-- Halves a range with a test that may fail. -/
def halve (below : Nat → Option Bool) (lo hi : Nat) : Option Nat :=
  if lo < hi then do
    let mid := lo + (hi - lo) / 2
    if ← below mid then halve below (mid + 1) hi else halve below lo mid
  else some lo
termination_by hi - lo

/-- Halving tests positions of the range only. -/
theorem halve_eq {below? : Nat → Option Bool} {below : Nat → Bool} {lo hi : Nat}
    (h : ∀ i, lo ≤ i → i < hi → below? i = some (below i)) :
    halve below? lo hi = some (TripleStore.halve below lo hi) := by
  fun_induction TripleStore.halve below lo hi with
  | case1 lo hi hlt mid hbelow ih =>
      rw [halve, if_pos hlt, ← ih fun i hlo hhi => h i (by omega) hhi]
      dsimp only
      rw [h _ (by omega) (by omega), hbelow]
      rfl
  | case2 lo hi hlt mid hbelow ih =>
      rw [halve, if_pos hlt, ← ih fun i hlo hhi => h i hlo (by omega)]
      dsimp only
      rw [Bool.not_eq_true] at hbelow
      rw [h _ (by omega) (by omega), hbelow]
      rfl
  | case3 lo hi hlt => rw [halve, if_neg hlt]

/-! ## Directories -/

open Directory (sampleStep)

def rank (d : Directory) (word : Nat → Option UInt64) (i : Nat) :
    Option Nat := do
  let block ← d.blocks[i / Block.bits]?
  let j := i % Block.bits / Word.width
  let w ← word (i / Block.bits * Block.words + j)
  return block.before + block.count j + Word.onesBelow w (i % Word.width)

/-- The first sample is demanded; the next one may be missing. -/
def searchRange (d : Directory) (k : Nat) : Option (Nat × Nat) := do
  let s := (k - 1) / sampleStep
  let first ← d.samples[s]?
  return (first.toNat,
    match d.samples[s + 1]? with
    | some next => min (next.toNat + 1) d.blocks.size
    | none => d.blocks.size)

def blockOf (d : Directory) (k : Nat) : Option Nat := do
  let range ← searchRange d k
  let i ← halve (fun i => d.blocks[i]?.map (·.before < k)) range.1 range.2
  demand (0 < i)
  return i - 1

def select (d : Directory) (word : Nat → Option UInt64) (k : Nat) :
    Option Nat := do
  let i ← blockOf d k
  let block ← d.blocks[i]?
  demand (block.before < k)
  let j := block.wordOf (k - block.before)
  demand (block.count j < k - block.before)
  let w ← word (i * Block.words + j)
  demand (k - block.before - block.count j ≤ Word.ones w)
  let inWord ← selectInWord w (k - block.before - block.count j - 1)
  return i * Block.bits + j * Word.width + inWord

variable {words : Nat → UInt64} {d : Directory} {n i k : Nat}

theorem getElem?_blocks {row : Nat → Bool} (h : Directory.Exact row d n)
    (hi : i ≤ n) :
    d.blocks[i]? = some (d.block i) := by
  have hlt : i < d.blocks.size := by
    rw [h.size_blocks]
    omega
  rw [Array.getElem?_eq_getElem hlt, Directory.block, Array.getD, dif_pos hlt]
  rfl

theorem rank_eq (h : Directory.Exact (bitRow words) d n)
    (hi : i ≤ Block.bits * n) :
    rank d (fun i => some (words i)) i = some (d.rank words i) := by
  have hblock : i / Block.bits ≤ n := Nat.div_le_of_le_mul hi
  rw [rank, getElem?_blocks h hblock]
  rfl

theorem blockOf_eq (h : Directory.Exact (bitRow words) d n) (hpos : 0 < k)
    (hk : k ≤ d.ones) :
    blockOf d k = some (d.blockOf k) := by
  obtain ⟨b, hb, j, hj, hleads⟩ := Directory.exists_leads h hpos hk
  obtain ⟨hsample, hlo, hhi, hend⟩ :=
    Directory.searchRange_spec h hb hleads.block_lt hleads.block_le
  have hrange : searchRange d k = some (d.searchRange k) := by
    rw [searchRange, Array.getElem?_eq_getElem hsample, Directory.searchRange,
      Array.getD, dif_pos hsample]
    rfl
  have hhalve :
      halve (fun i => d.blocks[i]?.map (·.before < k)) (d.searchRange k).1
      (d.searchRange k).2 =
        some (d.firstBlock k (d.searchRange k).1 (d.searchRange k).2) := by
    rw [Directory.firstBlock_eq_halve]
    apply halve_eq
    intro i _ hi
    rw [getElem?_blocks h (by omega)]
    rfl
  have hpositive :
      0 < d.firstBlock k (d.searchRange k).1 (d.searchRange k).2 := by
    rw [hleads.firstBlock]
    omega
  rw [blockOf, hrange]
  show (halve _ _ _ >>= _) = _
  rw [hhalve]
  show (demand _ >>= _) = _
  rw [demand_eq hpositive]
  rfl

/-- The number asked for is counted down by less than what is left of it, and a
word is left that has it. -/
theorem select_eq (h : Directory.Exact (bitRow words) d n) (hpos : 0 < k)
    (hk : k ≤ d.ones) :
    select d (fun i => some (words i)) k = some (d.select words k) := by
  obtain ⟨b, hb, j, hj, hleads⟩ := Directory.exists_leads h hpos hk
  obtain rfl := hleads.blockOf
  obtain rfl := hleads.wordOf
  have hones := hleads.ones
  have hcount := hleads.count
  rw [select, blockOf_eq h hpos hk]
  show (d.blocks[d.blockOf k]? >>= _) = _
  rw [getElem?_blocks h (Nat.le_of_lt hb)]
  show (demand _ >>= _) = _
  rw [demand_eq hleads.before]
  show (demand _ >>= _) = _
  rw [demand_eq hcount]
  show (demand _ >>= _) = _
  rw [demand_eq hones]
  show (selectInWord _ _ >>= _) = _
  rw [selectInWord_eq (by omega)]
  rfl

/-! ## Bitmaps -/

def rankBefore (b : Bitmap) (i : Nat) : Option Nat :=
  rank b.directory (dataWord b) (min i b.size)

def select1 (b : Bitmap) (k : Nat) : Option Nat := do
  demand (0 < k)
  demand (k ≤ b.ones)
  select b.directory (dataWord b) k

variable {b : Bitmap}

theorem rankBefore_eq (h : b.words.Fits) (i : Nat) :
    rankBefore b i = some (b.rankBefore i) := by
  rw [rankBefore, funext (dataWord_eq h)]
  apply rank_eq b.exact_directory
  exact Nat.le_trans (Nat.min_le_right _ _) (Directory.size_le_blocksFor b.size)

theorem select1_eq (h : b.words.Fits) {k : Nat} (hpos : 0 < k)
    (hk : k ≤ b.ones) :
    ∃ i, select1 b k = some i ∧ b.select1 k = .ok i := by
  refine ⟨b.directory.select b.word k, ?_, ?_⟩
  · rw [select1, demand_eq hpos, demand_eq hk, funext (dataWord_eq h)]
    exact select_eq b.exact_directory hpos hk
  · rw [Bitmap.select1, if_neg (by omega)]

end Checked

end TripleStore
