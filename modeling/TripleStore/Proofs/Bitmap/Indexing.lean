import Mathlib.Data.Nat.Digits.Defs
import TripleStore.Proofs.Bitmap.Counting

/-!
# Directories that are filled in one pass

A directory is kept in words, two for each block and for the one that closes the
list: the ones before the block, and seven counts of nine bits each, which do
not run into one another (`toNat_packed`). One pass over the words of the bits
fills it in, and a threshold that goes up by one step with each sample tells
when the next one is due (`Filling`). What comes out is the directory that is
built block by block (`holds_fill`). What such a directory tells of the bits,
down to each field of its words, is stated once more in terms of the list of
bits (`Directory.Tells`).
-/

namespace TripleStore

/-! ## Seven counts in a word -/

namespace Block

/-- A count that is shifted into its place loses nothing. -/
theorem toNat_shifted {count n : Nat} (hcount : count < 512) (hn : n < 7) :
    (count.toUInt64 <<< (9 * n).toUInt64).toNat = count <<< (9 * n) := by
  have hplace : (9 * n).toUInt64.toNat = 9 * n :=
    UInt64.toNat_ofNat_of_lt'
      (Nat.lt_trans (show 9 * n < 63 by omega) (by decide))
  have hword : count.toUInt64.toNat = count :=
    UInt64.toNat_ofNat_of_lt' (Nat.lt_trans hcount (by decide))
  have hfits : count <<< (9 * n) < 2 ^ 64 := by
    calc count <<< (9 * n) = count * 2 ^ (9 * n) := Nat.shiftLeft_eq ..
      _ < 2 ^ 9 * 2 ^ (9 * n) :=
        Nat.mul_lt_mul_of_pos_right hcount (Nat.two_pow_pos _)
      _ = 2 ^ (9 + 9 * n) := (Nat.pow_add ..).symm
      _ ≤ 2 ^ 64 := Nat.pow_le_pow_right (by decide) (by omega)
  rw [UInt64.toNat_shiftLeft, hword, hplace,
    Nat.mod_eq_of_lt (show 9 * n < 64 by omega),
    Nat.mod_eq_of_lt hfits]

/-- The counts are the digits of the word in base 512. -/
theorem toNat_packed {count : Nat → Nat} (hcount : ∀ j ≤ 7, count j < 512)
    {n : Nat} (hn : n ≤ 7) :
    (packed count n).toNat = Nat.ofDigits 512 ((List.range n).map fun j =>
      count (j + 1)) := by
  induction n with
  | zero => rfl
  | succ n ih =>
      have hpow : (512 : Nat) ^ n = 2 ^ (9 * n) := (Nat.pow_mul 2 9 n).symm
      -- what is packed so far lies below the place of the next count
      have hlow : (packed count n).toNat < 2 ^ (9 * n) := by
        have hdigits := Nat.ofDigits_lt_base_pow_length (b := 512)
          (l := (List.range n).map fun j => count (j + 1)) (by decide) (by
            simp only [List.mem_map, List.mem_range]
            rintro _ ⟨j, hj, rfl⟩
            exact hcount (j + 1) (by omega))
        rw [List.length_map, List.length_range, hpow] at hdigits
        rwa [ih (Nat.le_of_succ_le hn)]
      rw [packed_succ, UInt64.toNat_or, toNat_shifted (hcount (n + 1) hn) hn,
        Nat.or_comm, ← Nat.shiftLeft_add_eq_or_of_lt hlow,
        ih (Nat.le_of_succ_le hn), List.range_succ, List.map_append,
        Nat.ofDigits_append, List.map_singleton, Nat.ofDigits_singleton,
        List.length_map, List.length_range, hpow, Nat.shiftLeft_eq,
        Nat.add_comm, Nat.mul_comm]

theorem pack_congr {count count' : Nat → Nat}
    (h : ∀ j ≤ 7, count j = count' j) :
    pack count = pack count' := by
  refine List.foldl_ext _ _ _ fun packed j hj => ?_
  rw [h (j + 1) (List.mem_range.mp hj)]

end Block

namespace Directory

/-! ## The words of a directory -/

/-- The words that a directory is kept in, two for each block. -/
def entries (d : Directory) : List UInt64 :=
  d.blocks.toList.flatMap fun block => [block.before.toUInt64, block.within]

theorem length_entries (d : Directory) :
    d.entries.length = 2 * d.blocks.size := by
  simp [entries, List.length_flatMap, Nat.mul_comm]

theorem getElem?_flatMap_pair {α β : Type} (f g : α → β)
    (l : List α) (i : Nat) :
    (l.flatMap fun a => [f a, g a])[2 * i]? = l[i]?.map f ∧
      (l.flatMap fun a => [f a, g a])[2 * i + 1]? = l[i]?.map g := by
  induction l generalizing i with
  | nil => exact ⟨rfl, rfl⟩
  | cons a l ih =>
      cases i with
      | zero => exact ⟨rfl, rfl⟩
      | succ i => exact ih i

theorem getD_entries {d : Directory} {i : Nat} (hi : i < d.blocks.size) :
    d.entries.getD (2 * i) 0 = (d.block i).before.toUInt64 ∧
      d.entries.getD (2 * i + 1) 0 = (d.block i).within := by
  obtain ⟨hbefore, hwithin⟩ :=
    getElem?_flatMap_pair (fun block : Block => block.before.toUInt64)
    Block.within d.blocks.toList i
  have hblock : d.blocks.toList[i]? = some (d.block i) := by
    rw [Array.getElem?_toList, Array.getElem?_eq_getElem hi, block,
      Array.getD, dif_pos hi]
    rfl
  rw [hblock] at hbefore hwithin
  rw [List.getD_eq_getElem?_getD, List.getD_eq_getElem?_getD, entries,
    hbefore, hwithin]
  exact ⟨rfl, rfl⟩

theorem entries_push (d : Directory) (block : Block) {d' : Directory}
    (h : d'.blocks = d.blocks.push block) :
    d'.entries = d.entries ++ [block.before.toUInt64, block.within] := by
  rw [entries, h, Array.toList_push, List.flatMap_append]
  rfl

/-! ## One pass -/

/-- A directory as far as it is filled in: its words and samples, the ones so
far, and how many ones ask for the next sample. -/
structure Filling where
  words : Array UInt64
  samples : Array UInt32
  ones : Nat
  threshold : Nat

namespace Filling

def empty : Filling := ⟨#[], #[], 0, 0⟩

/-- Samples block `i` as often as the ones so far have come up to the threshold. -/
def sampleOn (f : Filling) (i : Nat) : Filling :=
  if f.threshold ≤ f.ones then
    sampleOn { f with
      samples := f.samples.push i.toUInt32
      threshold := f.threshold + sampleStep } i
  else f
termination_by f.ones + 1 - f.threshold
decreasing_by
  rw [sampleStep]
  omega

/-- Packs what was counted before word `j` of block `i`, and counts on. -/
def packWord (word : Nat → UInt64) (i : Nat) (counted : UInt64 × Nat)
    (j : Nat) : UInt64 × Nat :=
  (if 0 < j then counted.1 ||| (counted.2.toUInt64 <<< (9 * (j - 1)).toUInt64)
    else counted.1, counted.2 + Word.ones (word (i * Block.words + j)))

/-- The counts of block `i`, packed, and all its ones. -/
def packWords (word : Nat → UInt64) (i : Nat) : UInt64 × Nat :=
  (List.range Block.words).foldl (packWord word i) (0, 0)

def push (word : Nat → UInt64) (f : Filling) (i : Nat) : Filling :=
  let f := sampleOn { f with words := f.words.push f.ones.toUInt64 } i
  { f with
    words := f.words.push (packWords word i).1
    ones := f.ones + (packWords word i).2 }

/-- Adds block `n`, which stands after the last. -/
def close (f : Filling) (n : Nat) : Filling :=
  sampleOn { f with words := (f.words.push f.ones.toUInt64).push 0 } n

end Filling

/-- Fills in the directory of `size` bits. -/
def fill (word : Nat → UInt64) (size : Nat) : Filling :=
  ((List.range (blocksFor size)).foldl (Filling.push word) .empty).close
    (blocksFor size)

namespace Filling

variable {f : Filling} {d : Directory}

/-- What is filled in is what the directory has so far. -/
structure Holds (f : Filling) (d : Directory) : Prop where
  words : f.words.toList = d.entries
  samples : f.samples = d.samples
  ones : f.ones = d.ones
  threshold : f.threshold = sampleStep * d.samples.size

theorem holds_empty : empty.Holds Directory.empty := ⟨rfl, rfl, rfl, rfl⟩

/-- A sample that is due is the first of those that are missing. -/
theorem sample_push {samples : Array UInt32} {ones : Nat}
    (hdue : sampleStep * samples.size ≤ ones) (i : Nat) :
    sample (samples.push i.toUInt32) ones i = sample samples ones i := by
  have hle : samples.size ≤ ones / sampleStep :=
    (Nat.le_div_iff_mul_le (by decide)).mpr (Nat.mul_comm .. ▸ hdue)
  have hmissing : ones / sampleStep + 1 - samples.size =
      ones / sampleStep + 1 - (samples.push i.toUInt32).size + 1 := by
    rw [Array.size_push]
    omega
  rw [sample, sample, hmissing]
  apply Array.toList_inj.mp
  simp [List.replicate_succ]

theorem sample_eq_self {samples : Array UInt32} {ones : Nat}
    (hdue : ones < sampleStep * samples.size) (i : Nat) :
    sample samples ones i = samples := by
  have hnone : ones / sampleStep + 1 - samples.size = 0 :=
    Nat.sub_eq_zero_of_le
      ((Nat.div_lt_iff_lt_mul (by decide)).mpr (Nat.mul_comm .. ▸ hdue))
  rw [sample, hnone]
  simp

/-- The threshold goes up with the samples until none is missing. -/
theorem sampleOn_eq (hthreshold : f.threshold = sampleStep * f.samples.size)
    (i : Nat) :
    f.sampleOn i = { f with
      samples := sample f.samples f.ones i
      threshold := sampleStep * (sample f.samples f.ones i).size } := by
  induction f using sampleOn.induct i with
  | case1 f hdue ih =>
      rw [sampleOn, if_pos hdue, ih (by simp [hthreshold, Nat.mul_succ])]
      rw [hthreshold] at hdue
      simp only [sample_push hdue]
  | case2 f hdue =>
      rw [sampleOn, if_neg hdue]
      rw [hthreshold, Nat.not_le] at hdue
      rw [sample_eq_self hdue, ← hthreshold]

/-- After `n` words the counts before all but the first of them are packed. -/
theorem foldl_packWord (word : Nat → UInt64) (i : Nat) {n : Nat}
    (hn : n ≤ Block.words) :
    (List.range n).foldl (packWord word i) (0, 0) =
      (Block.packed (fun j => total ((wordCounts word i).take j)) (n - 1),
        total ((wordCounts word i).take n)) := by
  induction n with
  | zero => rfl
  | succ n ih =>
      have htake : total ((wordCounts word i).take (n + 1)) =
          total ((wordCounts word i).take n) +
            Word.ones (word (i * Block.words + n)) := by
        rw [take_wordCounts word i hn,
          take_wordCounts word i (Nat.le_of_succ_le hn), List.range_succ,
          List.map_append, total_append]
        rfl
      rw [List.range_succ, List.foldl_append, ih (Nat.le_of_succ_le hn), htake]
      cases n with
      | zero => rfl
      | succ n =>
          rw [Nat.add_sub_cancel, Nat.add_sub_cancel, Block.packed_succ]
          rfl

theorem packWords_eq (word : Nat → UInt64) (i : Nat) : packWords word i =
    (Block.pack fun j => total ((wordCounts word i).take j),
      total (wordCounts word i)) := by
  have hall : (wordCounts word i).take Block.words = wordCounts word i :=
    List.take_of_length_le (by simp [wordCounts])
  rw [packWords, foldl_packWord word i (Nat.le_refl _), hall]
  rfl

/-- One more block is filled in as it is added. -/
theorem Holds.push (h : f.Holds d) (word : Nat → UInt64) (i : Nat) :
    (f.push word i).Holds (d.addBlock i (wordCounts word i)) := by
  rw [Filling.push, packWords_eq, sampleOn_eq (by rw [h.samples, h.threshold])]
  exact {
    words := by
      rw [entries_push d _ rfl, ← h.words, ← h.ones]
      simp
    samples := by rw [h.samples, h.ones]; rfl
    ones := by rw [h.ones]; rfl
    threshold := by rw [h.samples, h.ones]; rfl }

theorem Holds.close (h : f.Holds d) :
    (f.close d.blocks.size).Holds d.close := by
  rw [Filling.close, sampleOn_eq (by rw [h.samples, h.threshold])]
  exact {
    words := by
      rw [entries_push d ⟨d.ones, 0⟩ rfl, ← h.words, ← h.ones]
      simp
    samples := by rw [h.samples, h.ones]; rfl
    ones := h.ones
    threshold := by rw [h.samples, h.ones]; rfl }

end Filling

theorem holds_foldl (word : Nat → UInt64) (n : Nat) :
    ((List.range n).foldl (Filling.push word) .empty).Holds
      ((List.range n).foldl (fun d i => d.addBlock i (wordCounts word i))
        empty) := by
  induction n with
  | zero => exact Filling.holds_empty
  | succ n ih =>
      rw [List.range_succ, List.foldl_append, List.foldl_append]
      exact ih.push word n

/-- The blocks that have been added are those numbers below `n`, each packed
from its words. -/
theorem blocks_foldl (word : Nat → UInt64) (n : Nat) :
    ((List.range n).foldl (fun d i => d.addBlock i (wordCounts word i))
      empty).blocks.size = n ∧
    ∀ i < n,
      (((List.range n).foldl (fun d i => d.addBlock i (wordCounts word i))
        empty).block i).within =
      Block.pack fun j => total ((wordCounts word i).take j) := by
  induction n with
  | zero => exact ⟨rfl, by simp⟩
  | succ n ih =>
      obtain ⟨hsize, hwithin⟩ := ih
      rw [List.range_succ, List.foldl_append]
      generalize (List.range n).foldl
        (fun d i => d.addBlock i (wordCounts word i)) empty = d at *
      refine ⟨by simp [addBlock, hsize], fun i hi => ?_⟩
      rcases Nat.lt_succ_iff_lt_or_eq.mp hi with hi | rfl
      · rw [← hwithin i hi]
        exact congrArg Block.within (block_push_lt d _ (hsize ▸ hi))
      · have hlast := block_push_size d ⟨d.ones, Block.pack fun j =>
          total ((wordCounts word i).take j)⟩
        rw [hsize] at hlast
        exact congrArg Block.within hlast

/-- One pass gives the directory that is built block by block. -/
theorem holds_fill (word : Nat → UInt64) (size : Nat) :
    (fill word size).Holds (build word size) := by
  have h := (holds_foldl word (blocksFor size)).close
  rwa [(blocks_foldl word (blocksFor size)).1] at h

/-- Each block is packed from its words, and the one that closes the list is
empty. -/
theorem within_build (word : Nat → UInt64) (size : Nat) :
    (∀ i < blocksFor size, ((build word size).block i).within =
      Block.pack fun j => total ((wordCounts word i).take j)) ∧
    ((build word size).block (blocksFor size)).within = 0 := by
  obtain ⟨hsize, hwithin⟩ := blocks_foldl word (blocksFor size)
  have hbuild : build word size = ((List.range (blocksFor size)).foldl
    (fun d i => d.addBlock i (wordCounts word i)) empty).close := rfl
  rw [hbuild]
  generalize (List.range (blocksFor size)).foldl
    (fun d i => d.addBlock i (wordCounts word i)) empty = d at *
  constructor
  · intro i hi
    rw [← hwithin i hi]
    exact congrArg Block.within (block_push_lt d _ (hsize ▸ hi))
  · have hlast := block_push_size d ⟨d.ones, 0⟩
    rw [hsize] at hlast
    exact congrArg Block.within hlast

/-! ## What a directory tells -/

/-- The ones in the first `j` words of block `i`. -/
def onesInWords (bits : List Bool) (i j : Nat) : Nat :=
  ((bits.drop (Block.bits * i)).take (Word.width * j)).count true

/-- What the words, the samples and the total of a directory tell of a list of
bits. -/
structure Tells (d : Directory) (bits : List Bool) : Prop where
  length_entries : d.entries.length = 2 * (blocksFor bits.length + 1)
  /-- The first word of each block has the ones before it. -/
  before : ∀ i ≤ blocksFor bits.length,
    (d.entries.getD (2 * i) 0).toNat =
      (bits.take (min (Block.bits * i) bits.length)).count true
  /-- A field of nine bits in the second word has the ones in the first one to
  seven words. -/
  field : ∀ i ≤ blocksFor bits.length, ∀ j < 7,
    ((d.entries.getD (2 * i + 1) 0 >>> (9 * j).toUInt64) &&& 0x1FF).toNat =
      onesInWords bits i (j + 1)
  /-- There is nothing else in the second word. -/
  within : ∀ i ≤ blocksFor bits.length, (d.entries.getD (2 * i + 1) 0).toNat =
    Nat.ofDigits 512 ((List.range 7).map fun j => onesInWords bits i (j + 1))
  size_samples : d.samples.size = bits.count true / sampleStep + 1
  /-- A sample names the first block that has so many ones before it. -/
  sample : ∀ s < d.samples.size,
    IsLeast {i | i ≤ blocksFor bits.length ∧
      sampleStep * s ≤ (d.entries.getD (2 * i) 0).toNat}
      (d.samples.getD s 0).toNat
  ones : d.ones = bits.count true

end Directory

namespace Bitmap

open Directory

variable (b : Bitmap)

theorem countOnes_row (n : Nat) :
    countOnes (bitRow b.word) n = (b.toList.take n).count true := by
  rw [count_take_toList]
  rcases Nat.le_total n b.size with hn | hn
  · rw [Nat.min_eq_left hn, countOnes_word hn]
  · rw [Nat.min_eq_right hn, countOnes_word_of_le hn]

/-- What a stretch of words adds to the ones before it. -/
theorem countOnes_add_onesInWords (i j : Nat) :
    countOnes (bitRow b.word) (Block.bits * i) + onesInWords b.toList i j =
      countOnes (bitRow b.word) (Block.bits * i + Word.width * j) := by
  rw [countOnes_row, countOnes_row, onesInWords, List.take_add,
    List.count_append]

theorem total_take_eq (i : Nat) {j : Nat} (hj : j ≤ Block.words) :
    total ((wordCounts b.word i).take j) = onesInWords b.toList i j :=
  Nat.add_left_cancel
    ((countOnes_add_total b.word i hj).trans
      (b.countOnes_add_onesInWords i j).symm)

/-- Behind the last block there are no bits. -/
theorem onesInWords_end (j : Nat) :
    onesInWords b.toList (blocksFor b.size) j = 0 := by
  have hend : b.toList.length ≤ Block.bits * blocksFor b.size := by
    rw [length_toList]
    exact size_le_blocksFor b.size
  rw [onesInWords, List.drop_of_length_le hend, List.take_nil]
  rfl

theorem countOnes_row_lt (n : Nat) : countOnes (bitRow b.word) n < 2 ^ 64 := by
  have hle : countOnes (bitRow b.word) n ≤ b.size := by
    rw [countOnes_row]
    calc (b.toList.take n).count true
        ≤ (b.toList.take n).length := List.count_le_length
      _ ≤ b.toList.length := List.length_take_le' ..
      _ = b.size := b.length_toList
  exact Nat.lt_of_le_of_lt hle
    (Nat.lt_of_lt_of_le b.size_lt_capacity (by decide))

theorem onesInWords_lt (bits : List Bool) (i : Nat) {j : Nat} (hj : j ≤ 7) :
    onesInWords bits i j < 512 := by
  have hle : onesInWords bits i j ≤ Word.width * j := by
    calc onesInWords bits i j
        ≤ ((bits.drop (Block.bits * i)).take (Word.width * j)).length :=
          List.count_le_length
      _ ≤ Word.width * j := List.length_take_le ..
  rw [Word.width] at hle
  omega

theorem getD_before {i : Nat} (hi : i ≤ blocksFor b.size) :
    (b.directory.entries.getD (2 * i) 0).toNat =
      countOnes (bitRow b.word) (Block.bits * i) := by
  have hexact := b.exact_directory
  rw [(getD_entries (by rw [hexact.size_blocks]; omega)).1, hexact.before i hi]
  exact UInt64.toNat_ofNat_of_lt' (b.countOnes_row_lt _)

theorem getD_within {i : Nat} (hi : i ≤ blocksFor b.size) :
    b.directory.entries.getD (2 * i + 1) 0 = Block.pack fun j =>
      onesInWords b.toList i j := by
  obtain ⟨hblock, hend⟩ := within_build b.word b.size
  have hdirectory : b.directory = build b.word b.size := b.directory_eq
  rw [(getD_entries (by rw [b.exact_directory.size_blocks]; omega)).2,
    hdirectory]
  rcases Nat.lt_or_eq_of_le hi with hlt | rfl
  · rw [hblock i hlt]
    exact Block.pack_congr fun j hj => b.total_take_eq i (Nat.le_succ_of_le hj)
  · have hempty :
        (Block.pack fun j => onesInWords b.toList (blocksFor b.size) j) =
          Block.pack fun _ => 0 :=
      Block.pack_congr fun j _ => b.onesInWords_end j
    rw [hend, hempty]
    rfl

/-- There is a sample for each multiple of the step up to the number of ones. -/
theorem size_samples : b.directory.samples.size = b.ones / sampleStep + 1 := by
  have hexact := b.exact_directory
  refine eq_of_forall_lt_iff fun s => ?_
  rw [hexact.lt_samples, ← hexact.ones, Nat.lt_succ_iff,
    Nat.le_div_iff_mul_le (by decide), Nat.mul_comm]
  rfl

/-- A sample is a block that has so many ones before it, and no block before
that one has. -/
theorem isLeast_sample {s : Nat} (hs : s < b.directory.samples.size) :
    IsLeast {i | i ≤ blocksFor b.size ∧
      sampleStep * s ≤ (b.directory.entries.getD (2 * i) 0).toNat}
      (b.directory.samples.getD s 0).toNat := by
  obtain ⟨hle, hreach, hfirst⟩ := b.exact_directory.sample s hs
  refine ⟨⟨hle, by rwa [b.getD_before hle]⟩, fun i hi => ?_⟩
  by_contra hlt
  have hbelow := hfirst i (Nat.not_le.mp hlt)
  rw [← b.getD_before hi.1] at hbelow
  exact Nat.not_le.mpr hbelow hi.2

/-- The words and samples of a directory tell the ranks of the bits, and none of
them is cut off where it is kept. They are what one pass over the words fills
in. -/
theorem directory_exact :
    b.directory.Tells b.toList ∧ (fill b.word b.size).Holds b.directory := by
  have hlength := b.length_toList
  have hcount (i : Nat) : ∀ j ≤ 7, onesInWords b.toList i j < 512 :=
    fun j hj => onesInWords_lt _ i hj
  constructor
  · exact {
      length_entries := by
        rw [length_entries, b.exact_directory.size_blocks, hlength]
      before := by
        intro i hi
        rw [hlength] at hi
        rw [b.getD_before hi, countOnes_row, List.take_eq_take_min]
      field := by
        intro i hi j hj
        rw [hlength] at hi
        rw [b.getD_within hi]
        exact Block.count_pack 0 (hcount i) hj
      within := by
        intro i hi
        rw [hlength] at hi
        rw [b.getD_within hi]
        exact Block.toNat_packed (hcount i) (Nat.le_refl 7)
      size_samples := by rw [b.size_samples, b.count_toList]
      sample := by
        intro s hs
        rw [hlength]
        exact b.isLeast_sample hs
      ones := b.count_toList.symm }
  · rw [b.directory_eq]
    exact holds_fill b.word b.size

/-- A full block and one bit more: the second sample names the block behind the
full one. -/
example : (ofWords (Array.replicate 9 (0 - 1)) 513).toOption.map
    (fun b => (b.directory.entries.map UInt64.toNat,
      b.directory.samples.toList)) =
      some ([0, Nat.ofDigits 512 [64, 128, 192, 256, 320, 384, 448],
        512, Nat.ofDigits 512 [1, 1, 1, 1, 1, 1, 1], 513, 0],
          [0, 1]) := by decide +kernel

end Bitmap

end TripleStore
