import TripleStore.Words
import TripleStore.Proofs.Bytes.Reads

/-!
# Words in a file

Words that were written one after another are found again where they were
written, copied or viewed (`reads_words`).
-/

namespace TripleStore

/-- The bytes of the first `n` words. -/
def rowBytes (word : Nat → UInt64) (n : Nat) : Bytes :=
  (List.range n).flatMap fun i => wordBytes (word i)

@[simp] theorem length_wordBytes (w : UInt64) : (wordBytes w).length = 8 :=
  LittleEndian.length_encode _ _

theorem decode_wordBytes (w : UInt64) :
    (LittleEndian.decode (wordBytes w)).toUInt64 = w := by
  have hfits : w.toNat < capacity (8 * 8) := w.toNat_lt
  rw [wordBytes, LittleEndian.decode_encode, Nat.mod_eq_of_lt hfits]
  exact UInt64.ofNat_toNat

theorem length_rowBytes (word : Nat → UInt64) (n : Nat) :
    (rowBytes word n).length = 8 * n := by
  induction n with
  | zero => rfl
  | succ n ih =>
      rw [rowBytes, List.range_succ, List.flatMap_append, List.length_append,
        List.flatMap_singleton, length_wordBytes, ← rowBytes, ih]
      rfl

/-- Each word has its bytes eight times its number behind the first. -/
theorem wordBytes_prefix_drop (word : Nat → UInt64) {i n : Nat} (hi : i < n) :
    wordBytes (word i) <+: (rowBytes word n).drop (8 * i) := by
  induction n with
  | zero => exact absurd hi (Nat.not_lt_zero i)
  | succ n ih =>
      have hrow :
          rowBytes word (n + 1) = rowBytes word n ++ wordBytes (word n) := by
        rw [rowBytes, List.range_succ, List.flatMap_append,
          List.flatMap_singleton, ← rowBytes]
      have hlength := length_rowBytes word n
      rcases Nat.lt_or_eq_of_le (Nat.lt_succ_iff.mp hi) with hlt | rfl
      · rw [hrow, List.drop_append_of_le_length (by omega)]
        exact (ih hlt).trans (List.prefix_append _ _)
      · have hdrop :
            (rowBytes word (i + 1)).drop (8 * i) = wordBytes (word i) := by
          rw [hrow, ← hlength, List.drop_left]
        exact hdrop ▸ List.prefix_rfl

namespace Words

theorem word_of_size_le {w : Words} {i : Nat} (h : w.size ≤ i) :
    w.word i = 0 := by
  have hout : ¬ i < w.size := Nat.not_lt.mpr h
  cases w with
  | owned words => exact dif_neg hout
  | view backing offset n => exact if_neg hout

/-- Words that stand in a backing are found there. -/
theorem word_of_prefix (mode : LoadMode) {backing : Backing}
    {word : Nat → UInt64} {start i n : Nat}
    (hfound : rowBytes word n <+: backing.toBytes.drop start) (hi : i < n) :
    (ofBacking mode backing start n).word i = word i := by
  have hword : wordBytes (word i) <+: backing.toBytes.drop (start + 8 * i) := by
    obtain ⟨after, hafter⟩ := hfound
    have hlength := length_rowBytes word n
    rw [← List.drop_drop, ← hafter, List.drop_append_of_le_length (by omega)]
    exact (wordBytes_prefix_drop word hi).trans (List.prefix_append _ after)
  have htake := List.prefix_iff_eq_take.mp hword
  rw [length_wordBytes] at htake
  rw [word_ofBacking, if_pos hi, Backing.wordAt, Backing.slice_eq, ← htake,
    decode_wordBytes]

theorem beq_of {w v : Words} (hsize : w.size = v.size)
    (hword : ∀ i, w.word i = v.word i) :
    (w == v) = true := by
  show (w.size == v.size &&
    (List.range w.size).all fun i => w.word i == v.word i) = true
  rw [hsize, beq_self_eq_true, Bool.true_and, List.all_eq_true]
  intro i _
  rw [hword, beq_self_eq_true]

theorem beq_iff {w v : Words} :
    (w == v) = true ↔ w.size = v.size ∧ ∀ i, w.word i = v.word i := by
  refine ⟨fun h => ?_, fun h => beq_of h.1 h.2⟩
  have h :
      (w.size == v.size &&
        (List.range w.size).all fun i => w.word i == v.word i) = true := h
  simp only [Bool.and_eq_true, beq_iff_eq, List.all_eq_true,
    List.mem_range] at h
  obtain ⟨hsize, hword⟩ := h
  refine ⟨hsize, fun i => ?_⟩
  by_cases hi : i < w.size
  · exact hword i hi
  · rw [word_of_size_le (Nat.le_of_not_lt hi),
      word_of_size_le (hsize ▸ Nat.le_of_not_lt hi)]

end Words

namespace Emit

theorem emits_words (word : Nat → UInt64) (n : Nat) (r : Running) :
    Emits ((List.range n).forM fun i => writeAll (wordBytes (word i))) r
      (rowBytes word n) (r.absorb (rowBytes word n)) :=
  emits_forM (fun i => emits_writeAll (wordBytes (word i))) _ r

end Emit

namespace Scan

/-- A range of the backing begins where the bytes that it passes over do. -/
theorem reads_range (bytes : Bytes) (r : Running) :
    Reads (range bytes.length) r bytes
    (fun found => bytes <+: found.1.toBytes.drop found.2) (r.absorb bytes) where
  takes := by
    intro source warnings hsteady hnext
    refine ⟨(source.backing, source.position), hnext, ?_⟩
    have hroom : ¬ source.backing.size < source.position + bytes.length := by
      have hlength := hnext.length_le
      have hle := hsteady.position_le
      rw [Source.length_rest] at hlength
      omega
    have hslice :
        source.backing.slice source.position bytes.length = bytes := by
      rw [Backing.slice_eq]
      exact (List.prefix_iff_eq_take.mp hnext).symm
    rw [range, bind_eq_ok]
    refine ⟨_, _, rfl, ?_⟩
    dsimp only
    rw [if_neg hroom, hslice]
    rfl
  starves := by
    intro source warnings hcuts
    have hshort : source.backing.size < source.position + bytes.length := by
      have hlength := hcuts.length_lt
      rw [Source.length_rest] at hlength
      omega
    refine ⟨⟨source, r, warnings⟩, ?_⟩
    rw [range, bind_eq_error]
    refine .inr ⟨_, _, rfl, ?_⟩
    dsimp only
    rw [if_pos hshort]
    rfl

/-- In either mode the words come back as they were written. -/
theorem reads_words (mode : LoadMode) (word : Nat → UInt64) {m n : Nat}
    (h : m = n) (r : Running) :
    Reads (Words.read mode m) r (rowBytes word n)
      (fun w => ∀ i < n, w.val.word i = word i)
      (r.absorb (rowBytes word n)) := by
  subst h
  have hrange := reads_range (rowBytes word m) r
  rw [length_rowBytes] at hrange
  rw [Words.read]
  refine reads_last hrange ?_
  rintro ⟨backing, start⟩ hfound
  exact reads_pure (fun i hi => Words.word_of_prefix mode hfound hi) _

end Scan

end TripleStore
