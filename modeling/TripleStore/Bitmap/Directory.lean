import TripleStore.Word

/-!
# Rank directories

Bits are counted by blocks of eight words. For each block the directory keeps
the ones before it and, in nine bits each, the ones in its first one to seven
words; one more block closes the list with the total. A sample for every 512th
one names the first block that has that many ones before it, and so narrows the
search for a one by its number.
-/

namespace TripleStore

structure Block where
  before : Nat
  within : UInt64

namespace Block

def words : Nat := 8

def bits : Nat := words * Word.width

/-- Packs the counts for one to seven words. -/
def pack (count : Nat → Nat) : UInt64 :=
  (List.range (words - 1)).foldl
    (fun packed j => packed ||| ((count (j + 1)).toUInt64 <<< (9 * j).toUInt64)) 0

/-- The ones in the first `j` words of the block, for `j` up to 7. -/
def count (b : Block) : Nat → Nat
  | 0 => 0
  | j + 1 => ((b.within >>> (9 * j).toUInt64) &&& 0x1FF).toNat

/-- The word that holds the one number `k` of the block: the last with fewer
ones before it. -/
def wordOf (b : Block) (k : Nat) : Nat :=
  ((List.range (words - 1)).takeWhile fun j => b.count (j + 1) < k).length

end Block

structure Directory where
  blocks : Array Block
  samples : Array UInt32
  ones : Nat

namespace Directory

/-- Ones from one sample to the next. -/
def sampleStep : Nat := 512

def empty : Directory := ⟨#[], #[], 0⟩

/-- Samples block `i` for every multiple of `sampleStep` up to `total` that has
none. -/
def sample (samples : Array UInt32) (total i : Nat) : Array UInt32 :=
  samples ++ Array.replicate (total / sampleStep + 1 - samples.size) i.toUInt32

def total (counts : List Nat) : Nat := counts.foldr (· + ·) 0

/-- Adds block `i`, whose words hold `counts` ones. -/
def addBlock (d : Directory) (i : Nat) (counts : List Nat) : Directory :=
  { blocks := d.blocks.push ⟨d.ones, Block.pack fun j => total (counts.take j)⟩
    samples := sample d.samples d.ones i
    ones := d.ones + total counts }

/-- Adds the block that stands after the last. -/
def close (d : Directory) : Directory :=
  { d with
    blocks := d.blocks.push ⟨d.ones, 0⟩
    samples := sample d.samples d.ones d.blocks.size }

def blocksFor (size : Nat) : Nat := (size + (Block.bits - 1)) / Block.bits

/-- The directory of `size` bits; `word` gives their words, and zeros past the
end. -/
def build (word : Nat → UInt64) (size : Nat) : Directory :=
  ((List.range (blocksFor size)).foldl
    (fun d i => d.addBlock i ((List.range Block.words).map fun j =>
      Word.ones (word (i * Block.words + j)))) empty).close

def block (d : Directory) (i : Nat) : Block := d.blocks.getD i ⟨0, 0⟩

/-- The ones before position `i`. -/
def rank (d : Directory) (word : Nat → UInt64) (i : Nat) : Nat :=
  let block := d.block (i / Block.bits)
  let j := i % Block.bits / Word.width
  block.before + block.count j +
    Word.onesBelow (word (i / Block.bits * Block.words + j)) (i % Word.width)

/-- The first block from `lo` on, and before `hi`, that has at least `target`
ones before it, or else `hi`. -/
def firstBlock (d : Directory) (target lo hi : Nat) : Nat :=
  if lo < hi then
    let mid := lo + (hi - lo) / 2
    if (d.block mid).before < target then firstBlock d target (mid + 1) hi
    else firstBlock d target lo mid
  else lo
termination_by hi - lo

/-- The blocks among which the samples place the first with `k` ones before it. -/
def searchRange (d : Directory) (k : Nat) : Nat × Nat :=
  let s := (k - 1) / sampleStep
  ((d.samples.getD s 0).toNat,
    match d.samples[s + 1]? with
    | some next => min (next.toNat + 1) d.blocks.size
    | none => d.blocks.size)

/-- The block that holds the one number `k`: the last with fewer ones before it. -/
def blockOf (d : Directory) (k : Nat) : Nat :=
  d.firstBlock k (d.searchRange k).1 (d.searchRange k).2 - 1

/-- Where the one number `k` stands, for `k` from 1 up to the number of ones. -/
def select (d : Directory) (word : Nat → UInt64) (k : Nat) : Nat :=
  let i := d.blockOf k
  let block := d.block i
  let j := block.wordOf (k - block.before)
  i * Block.bits + j * Word.width +
    Word.select (word (i * Block.words + j))
      (k - block.before - block.count j - 1)

end Directory

end TripleStore
