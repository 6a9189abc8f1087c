import TripleStore.Bitmap.Section
import TripleStore.Proofs.Bitmap.RankSelect
import TripleStore.Proofs.Section.Header
import TripleStore.Proofs.Words

/-!
# Bitmaps come back

A bitmap is known by its size and its words without stray bits (`Same`). These
are what is written, and so what is read is the same bitmap, under any
configuration (`reads_read`).
-/

namespace TripleStore.Bitmap

/-- Two bitmaps have the same bits. -/
structure Same (b c : Bitmap) : Prop where
  size : b.size = c.size
  word : ∀ i, b.word i = c.word i

variable {b c : Bitmap}

theorem Same.symm (h : Same b c) : Same c b :=
  ⟨h.size.symm, fun i => (h.word i).symm⟩

theorem Same.bit (h : Same b c) {i : Nat} (hi : i < b.size) :
    b.bit i = c.bit i := by
  have hrow := congrFun (bitRow_congr h.word) i
  rw [bitRow_word, bitRow_word, ← h.size, decide_eq_true hi, Bool.true_and,
    Bool.true_and] at hrow
  exact hrow

/-- The directory depends on the bits alone. -/
theorem Same.directory (h : Same b c) : b.directory = c.directory := by
  have hword : maskedWord b.words b.size = maskedWord c.words c.size :=
    funext h.word
  rw [b.directory_eq, c.directory_eq, hword, h.size]

theorem Same.select1 (h : Same b c) (k : Nat) : b.select1 k = c.select1 k := by
  rw [Bitmap.select1, Bitmap.select1, ones, ones, h.directory, funext h.word]

theorem Same.beq (h : Same b c) : (b == c) = true := by
  show (b.size == c.size &&
    (List.range (wordsFor b.size)).all fun i => b.word i == c.word i) = true
  rw [h.size, beq_self_eq_true, Bool.true_and, List.all_eq_true]
  intro i _
  rw [h.word, beq_self_eq_true]

/-- The words without stray bits are determined by the bits. -/
theorem same_of_bit (hsize : b.size = c.size)
    (hbit : ∀ i < b.size, b.bit i = c.bit i) : Same b c where
  size := hsize
  word := by
    have hrow : ∀ p, bitRow b.word p = bitRow c.word p := by
      intro p
      rw [bitRow_word, bitRow_word, ← hsize]
      by_cases hp : p < b.size
      · rw [hbit p hp]
      · rw [decide_eq_false hp, Bool.false_and, Bool.false_and]
    intro i
    refine Word.ext fun k hk => ?_
    rw [← TripleStore.bitRow_word b.word i hk,
      ← TripleStore.bitRow_word c.word i hk, hrow]

/-- Words that agree with those of a bitmap make the same bitmap. -/
theorem same_ofParts {words : Words} {n : Nat} (hn : n = b.size)
    {hwords : words.size = wordsFor n} {hle : n ≤ maxBits}
    (h : ∀ i < wordsFor b.size, words.word i = b.word i) :
    Same b (ofParts words n hwords hle) := by
  refine same_of_bit hn.symm fun i hi => ?_
  have hrow := bitRow_word b i
  rw [decide_eq_true hi, Bool.true_and, bitRow,
    ← h _ (div_lt_wordsFor hi)] at hrow
  exact hrow.symm

/-! ## Sections -/

open Emit Scan
open Section (Header)

/-- What stands between the header and the check. -/
def payload (b : Bitmap) : Bytes :=
  LittleEndian.encode 8 b.size ++ rowBytes b.word (wordsFor b.size)

def encode (b : Bitmap) (kind : Checksum) : Bytes :=
  (Header.leaf .bitmap kind).encode ++ sealed kind b.payload

theorem encode_eq (b : Bitmap) (kind : Checksum) :
    b.encode kind = (Header.leaf .bitmap kind).encode ++
      (LittleEndian.encode 8 b.size ++
      (rowBytes b.word (wordsFor b.size) ++ (((Running.start kind).absorb
        (LittleEndian.encode 8 b.size)).absorb
          (rowBytes b.word (wordsFor b.size))).trailer)) := by
  rw [encode, sealed, payload, Running.absorb_append, List.append_assoc]

theorem Same.encode (h : Same b c) (kind : Checksum) :
    b.encode kind = c.encode kind := by
  rw [Bitmap.encode, Bitmap.encode, payload, payload, h.size, funext h.word]

theorem Same.write (h : Same b c) (kind : Checksum) :
    b.write kind = c.write kind := by
  rw [Bitmap.write, Bitmap.write, h.size, funext h.word]

theorem writes_write (b : Bitmap) (kind : Checksum) :
    Writes (b.write kind) (b.encode kind) := by
  intro r
  obtain ⟨r₁, hheader⟩ := Header.writes_write (.leaf .bitmap kind) r
  rw [encode_eq]
  exact ⟨_, emits_bind hheader fun _ =>
    emits_silent (emits_restart kind _) fun _ =>
    emits_bind (emits_writeAll _ _) fun _ =>
    emits_bind (emits_words _ _ _) fun _ => emits_trailer _⟩

theorem decode_size (b : Bitmap) :
    LittleEndian.decode (LittleEndian.encode 8 b.size) = b.size := by
  rw [LittleEndian.decode_encode]
  apply Nat.mod_eq_of_lt
  exact Nat.lt_of_le_of_lt b.size_le (by decide)

/-- A bitmap comes back the same. -/
theorem reads_read (b : Bitmap) (kind : Checksum) (config : Config)
    (r : Running) :
    Reads (read config) r (b.encode kind) (Same b)
      ((Running.start kind).absorb b.payload) := by
  have hend :
      ((Running.start kind).absorb (LittleEndian.encode 8 b.size)).absorb
      (rowBytes b.word (wordsFor b.size)) =
        (Running.start kind).absorb b.payload := by
    rw [payload, Running.absorb_append]
  rw [encode_eq, read]
  refine reads_bind (Header.reads_read (Header.portable_leaf .bitmap kind)
    config.strict r) ?_
  rintro _ rfl
  refine reads_known (a := Header.leaf .bitmap kind) rfl ?_
  refine reads_known (Header.checksum_leaf .bitmap kind) ?_
  refine reads_silent (reads_restart kind _) fun _ _ => ?_
  have hsize := reads_readExact (LittleEndian.encode 8 b.size) (.start kind)
  rw [LittleEndian.length_encode] at hsize
  refine reads_bind hsize fun bytes hbytes => ?_
  have hdecode : LittleEndian.decode bytes = b.size := by
    rw [hbytes, decode_size]
  dsimp only
  rw [dif_neg (by rw [hdecode]; exact Nat.not_lt.mpr b.size_le)]
  refine reads_bind (reads_words config.loadMode b.word
    (congrArg wordsFor hdecode) _)
    fun words hwords => ?_
  refine reads_last (reads_closePart .bitmap config.strict _) fun _ _ => ?_
  rw [hend]
  exact reads_pure (same_ofParts hdecode hwords) _

end TripleStore.Bitmap
