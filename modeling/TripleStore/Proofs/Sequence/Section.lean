import TripleStore.Sequence.Section
import TripleStore.Proofs.Section.Header
import TripleStore.Proofs.Sequence.Packing
import TripleStore.Proofs.Words

/-!
# Sequences come back

A sequence is known by its width, its size and its words without what lies past
the last value (`Same`). If the size and the bits can be counted in a word, what
is read is the same sequence as what was written, under any configuration
(`reads_read`), and its words are those of the other one without the stray bits
(`ofBytes_toBytes`).
-/

namespace TripleStore.Sequence

/-- Two sequences have the same numbers in the same width. -/
structure Same (s t : Sequence) : Prop where
  width : s.width = t.width
  size : s.size = t.size
  word : ∀ i, s.word i = t.word i

variable {s t : Sequence}

/-- The row of a sequence's words ends with the last value. -/
theorem bitRow_word (s : Sequence) (p : Nat) :
    bitRow s.word p = (decide (p < s.size * s.width) &&
      bitRow s.words.word p) := by
  rw [bitRow, word, Word.bit_low]
  have hp := Nat.div_add_mod p Word.width
  congr 1
  exact decide_eq_decide.mpr (by omega)

theorem Same.value (h : Same s t) {i : Nat} (hi : i < s.size) :
    s.value i = t.value i := by
  apply value_eq_of_bitRow h.width
  intro k hk
  have hrow := congrFun (bitRow_congr h.word) (i * s.width + k)
  have hend : i * s.width + k < s.size * s.width := by
    have hnext : (i + 1) * s.width ≤ s.size * s.width :=
      Nat.mul_le_mul_right _ hi
    rw [Nat.succ_mul] at hnext
    omega
  rw [bitRow_word, bitRow_word, ← h.size, ← h.width, decide_eq_true hend,
    Bool.true_and, Bool.true_and] at hrow
  exact hrow

theorem Same.toList (h : Same s t) : s.toList = t.toList := by
  rw [Sequence.toList, Sequence.toList, ← h.size]
  exact List.map_congr_left fun i hi => h.value (List.mem_range.mp hi)

theorem Same.get (h : Same s t) (i : Nat) : s.get i = t.get i := by
  rw [Sequence.get, Sequence.get, ← h.size]
  by_cases hi : i < s.size
  · rw [if_pos hi, if_pos hi, h.value hi]
  · rw [if_neg hi, if_neg hi]

/-- The same words are kept for the same numbers, stray bits included. -/
structure Copy (s t : Sequence) : Prop where
  width : s.width = t.width
  size : s.size = t.size
  word : ∀ i, s.words.word i = t.words.word i

theorem Copy.same (h : Copy s t) : Same s t where
  width := h.width
  size := h.size
  word := by
    intro i
    rw [Sequence.word, Sequence.word, h.word, h.size, h.width]

theorem Copy.beq (h : Copy s t) : (s == t) = true := by
  have hwords : s.words.size = t.words.size := by
    rw [s.size_words, t.size_words, h.size, h.width]
  show (s.words == t.words && s.width == t.width && s.size == t.size) = true
  rw [Words.beq_of hwords h.word, h.width, h.size, beq_self_eq_true,
    beq_self_eq_true]
  rfl

/-- The second sequence keeps the words of the first without what lies past the
last value. -/
structure Trims (s t : Sequence) : Prop where
  width : s.width = t.width
  size : s.size = t.size
  word : ∀ i, s.word i = t.words.word i

theorem Trims.same (h : Trims s t) : Same s t where
  width := h.width
  size := h.size
  word := by
    refine fun i => Word.ext fun k _ => ?_
    rw [Sequence.word, Sequence.word, ← h.word, ← h.width, ← h.size,
      Sequence.word]
    simp

/-- Nothing is written of a word past the last value. -/
theorem word_eq_zero (s : Sequence) {i : Nat}
    (h : wordsFor (s.size * s.width) ≤ i) : s.word i = 0 := by
  have hend : s.size * s.width - Word.width * i = 0 := by
    rw [wordsFor] at h
    rw [Word.width]
    omega
  refine Word.ext fun k _ => ?_
  simp [word, hend]

/-- Words that agree with what is written of a sequence make the sequence
without stray bits. -/
theorem trims_of_words {words : Words} {width n : Nat}
    (hwidth : s.width = width) (hn : s.size = n) {hle : width ≤ Word.width}
    {hwords : words.size = wordsFor (n * width)}
    (h : ∀ i < wordsFor (s.size * s.width), words.word i = s.word i) :
    Trims s ⟨words, width, n, hle, hwords⟩ := by
  subst hwidth hn
  refine ⟨rfl, rfl, fun i => ?_⟩
  by_cases hi : i < wordsFor (s.size * s.width)
  · exact (h i hi).symm
  · have hend := Nat.le_of_not_lt hi
    exact (s.word_eq_zero hend).trans
      (Words.word_of_size_le (hwords.trans_le hend)).symm

/-! ## Sections -/

open Emit Scan
open Section (Header)

/-- Values and bits can be counted in a word, as they can wherever there is room
for them. -/
structure Portable (s : Sequence) : Prop where
  size : s.size < capacity 64
  bits : s.size * s.width < capacity 64

/-- What stands between the header and the check. -/
def payload (s : Sequence) : Bytes :=
  [s.width.toUInt8] ++
    (Vbyte.encode s.size ++ rowBytes s.word (wordsFor (s.size * s.width)))

def encode (s : Sequence) (kind : Checksum) : Bytes :=
  (Header.leaf .sequence kind).encode ++ sealed kind s.payload

theorem encode_eq (s : Sequence) (kind : Checksum) :
    s.encode kind = (Header.leaf .sequence kind).encode ++
      ([s.width.toUInt8] ++ (Vbyte.encode s.size ++
      (rowBytes s.word (wordsFor (s.size * s.width)) ++
        ((((Running.start kind).absorb [s.width.toUInt8]).absorb
          (Vbyte.encode s.size)).absorb
          (rowBytes s.word (wordsFor (s.size * s.width)))).trailer))) := by
  rw [encode, sealed, payload, Running.absorb_append, Running.absorb_append,
    List.append_assoc, List.append_assoc]

theorem Same.encode (h : Same s t) (kind : Checksum) :
    s.encode kind = t.encode kind := by
  rw [Sequence.encode, Sequence.encode, payload, payload, h.width, h.size,
    funext h.word]

theorem Same.write (h : Same s t) (kind : Checksum) :
    s.write kind = t.write kind := by
  rw [Sequence.write, Sequence.write, h.width, h.size, funext h.word]

theorem writes_write (s : Sequence) (kind : Checksum) :
    Writes (s.write kind) (s.encode kind) := by
  intro r
  obtain ⟨r₁, hheader⟩ := Header.writes_write (.leaf .sequence kind) r
  rw [encode_eq]
  exact ⟨_, emits_bind hheader fun _ =>
    emits_silent (emits_restart kind _) fun _ =>
    emits_bind (emits_writeAll _ _) fun _ =>
    emits_bind (emits_vbyte _ _) fun _ =>
    emits_bind (emits_words _ _ _) fun _ => emits_trailer _⟩

theorem toNat_width (s : Sequence) : s.width.toUInt8.toNat = s.width := by
  have hle := s.width_le
  rw [Word.width] at hle
  exact Vbyte.toNat_toUInt8 (by omega)

/-- A sequence comes back without its stray bits. -/
theorem reads_trimmed (hportable : s.Portable) (kind : Checksum)
    (config : Config) (r : Running) :
    Reads (read config) r (s.encode kind) (Trims s)
      ((Running.start kind).absorb s.payload) := by
  have hend :
      (((Running.start kind).absorb [s.width.toUInt8]).absorb
        (Vbyte.encode s.size)).absorb
      (rowBytes s.word (wordsFor (s.size * s.width))) =
        (Running.start kind).absorb s.payload := by
    rw [payload, Running.absorb_append, Running.absorb_append]
  rw [encode_eq, read]
  refine reads_bind (Header.reads_read (Header.portable_leaf .sequence kind)
    config.strict r) ?_
  rintro _ rfl
  refine reads_known (a := Header.leaf .sequence kind) rfl ?_
  refine reads_known (Header.checksum_leaf .sequence kind) ?_
  refine reads_silent (reads_restart kind _) fun _ _ => ?_
  refine reads_bind (reads_byte s.width.toUInt8 _) fun byte hbyte => ?_
  have hwidth : byte.toNat = s.width := by rw [hbyte, toNat_width]
  dsimp only
  rw [dif_pos (by rw [hwidth]; exact s.width_le)]
  refine reads_bind (Vbyte.reads_read (by decide) hportable.size _) ?_
  rintro _ rfl
  rw [if_neg (by rw [hwidth]; exact Nat.not_le.mpr hportable.bits)]
  refine reads_bind (reads_words config.loadMode s.word (by rw [hwidth]) _)
    fun words hwords => ?_
  refine reads_last (reads_closePart .sequence config.strict _) fun _ _ => ?_
  rw [hend]
  exact reads_pure (trims_of_words hwidth.symm rfl hwords) _

/-- A sequence comes back the same. -/
theorem reads_read (hportable : s.Portable) (kind : Checksum) (config : Config)
    (r : Running) :
    Reads (read config) r (s.encode kind) (Same s)
      ((Running.start kind).absorb s.payload) :=
  (reads_trimmed hportable kind config r).imp fun _ => Trims.same

/-- A sequence is read back from its bytes, and nothing is left over. -/
theorem ofBytes_toBytes (hportable : s.Portable) :
    ∃ t, Trims s t ∧ ofBytes s.toBytes = .ok t := by
  have hparses :
      Parses (read .standard) (Backing.ofBytes (s.encode .standard)).toBytes
        (Trims s) :=
    parses_of_reads fun r => ⟨_, reads_trimmed hportable .standard .standard r⟩
  rw [ofBytes, toBytes, toBytes_of_writes (s.writes_write .standard)]
  exact run_of_parsesAll (parsesAll_whole .sequence hparses)

end TripleStore.Sequence
