import TripleStore.Proofs.Adjacency.Building
import TripleStore.Proofs.Adjacency.Search
import TripleStore.Proofs.Bitmap.Section
import TripleStore.Proofs.Sequence.Section

/-!
# Adjacency lists come back

An adjacency list is as good as its two parts (`Same`), which are written one
after the other and read again.
-/

namespace TripleStore.Adjacency

/-- Two adjacency lists have the same keys and values. -/
structure Same (a b : Adjacency) : Prop where
  bitmap : a.bitmap.Same b.bitmap
  sequence : a.sequence.Same b.sequence

variable {a b : Adjacency}

theorem Same.refl (a : Adjacency) : Same a a :=
  ⟨⟨rfl, fun _ => rfl⟩, ⟨rfl, rfl, fun _ => rfl⟩⟩

theorem Same.size (h : Same a b) : a.size = b.size := h.sequence.size

theorem Same.value (h : Same a b) {i : Nat} (hi : i < a.size) :
    a.value i = b.value i :=
  h.sequence.value hi

theorem Same.isLast (h : Same a b) {i : Nat} (hi : i < a.size) :
    a.isLast i = b.isLast i := by
  rw [size_eq] at hi
  exact h.bitmap.bit hi

theorem Same.keys (h : Same a b) : a.keys = b.keys := by
  rw [keys_eq, keys_eq, ← h.size]
  exact countOnes_congr fun i hi => h.isLast hi

theorem Same.key (h : Same a b) {i : Nat} (hi : i ≤ a.size) :
    a.key i = b.key i := by
  rw [key_eq hi, key_eq (h.size ▸ hi)]
  exact congrArg (· + 1) (countOnes_congr fun j hj => h.isLast (by omega))

theorem Same.toList (h : Same a b) : a.toList = b.toList := by
  rw [toList_eq, toList_eq, ← h.size]
  apply List.map_congr_left
  intro i hi
  have hi := List.mem_range.mp hi
  rw [h.key (Nat.le_of_lt hi), h.value hi]

theorem Same.keySpan (h : Same a b) (k : Nat) : a.keySpan k = b.keySpan k := by
  have hstop : ∀ k, a.stop k = b.stop k := by
    intro k
    rw [stop, stop, h.bitmap.select1, h.bitmap.size]
  rw [Adjacency.keySpan, Adjacency.keySpan, hstop, hstop]

theorem Same.span (h : Same a b) (k : Nat) : a.span k = b.span k := by
  rw [Adjacency.span, Adjacency.span, h.keys, h.keySpan]

theorem Same.lowerBound (h : Same a b) (lo : Nat) {hi : Nat} (hhi : hi ≤ a.size)
    (v : UInt64) :
    a.lowerBound lo hi v = b.lowerBound lo hi v := by
  exact lowerBound_congr (fun i _ hi => h.value (Nat.lt_of_lt_of_le hi hhi)) v

theorem Same.find? (h : Same a b) {s : Span} (hs : s.stop ≤ a.size)
    (v : UInt64) :
    a.find? s v = b.find? s v := by
  rw [Adjacency.find?, Adjacency.find?, ← h.lowerBound s.start hs]
  by_cases hi : a.lowerBound s.start s.stop v < s.stop
  · rw [h.value (Nat.lt_of_lt_of_le hi hs)]
  · rw [if_neg (fun hfound => hi hfound.1), if_neg (fun hfound => hi hfound.1)]

/-! ## Sections -/

open Emit Scan

def encode (a : Adjacency) (kind : Checksum) : Bytes :=
  a.bitmap.encode kind ++ a.sequence.encode kind

theorem Same.encode (h : Same a b) (kind : Checksum) :
    a.encode kind = b.encode kind := by
  rw [Adjacency.encode, Adjacency.encode, h.bitmap.encode, h.sequence.encode]

theorem Same.write (h : Same a b) (kind : Checksum) :
    a.write kind = b.write kind := by
  rw [Adjacency.write, Adjacency.write, h.bitmap.write, h.sequence.write]

theorem writes_write (a : Adjacency) (kind : Checksum) :
    Writes (a.write kind) (a.encode kind) :=
  writes_bind (a.bitmap.writes_write kind) (a.sequence.writes_write kind)

/-- There are no more values than a bitmap has bits. -/
theorem portable_sequence (a : Adjacency) : a.sequence.Portable := by
  have hsize : a.sequence.size ≤ maxBits := a.size_le
  have hcapacity : capacity 64 = 18446744073709551616 := by decide
  rw [maxBits_eq] at hsize
  refine ⟨by omega, ?_⟩
  calc a.sequence.size * a.sequence.width
      ≤ (512 * 4294967295) * 64 := Nat.mul_le_mul hsize a.sequence.width_le
    _ < capacity 64 := by omega

/-- Parts that are the same fit together as before. -/
theorem ofParts_of_same {bitmap : Bitmap} {sequence : Sequence}
    (hbitmap : a.bitmap.Same bitmap) (hsequence : a.sequence.Same sequence) :
    ∃ b, ofParts bitmap sequence = .ok b ∧ Same a b := by
  have hsizes : bitmap.size = sequence.size := by
    rw [← hbitmap.size, a.sizes_eq, hsequence.size]
  have hlast : bitmap.size ≠ 0 → bitmap.bit (bitmap.size - 1) = true := by
    intro hne
    rw [← hbitmap.size] at hne ⊢
    rw [← hbitmap.bit (by omega)]
    exact a.terminated hne
  refine ⟨⟨bitmap, sequence, hsizes, hlast⟩, ?_, hbitmap, hsequence⟩
  rw [ofParts, dif_pos hsizes, dif_pos hlast]

/-- An adjacency list comes back the same. -/
theorem parses_read (a : Adjacency) (kind : Checksum) (config : Config) :
    Parses (read config) (a.encode kind) (Same a) := by
  refine parses_of_reads fun r =>
    ⟨(Running.start kind).absorb a.sequence.payload, ?_⟩
  rw [read]
  refine reads_bind (a.bitmap.reads_read kind config r) fun bitmap hbitmap => ?_
  refine reads_last (Sequence.reads_read a.portable_sequence kind config _)
    fun sequence hsequence => ?_
  obtain ⟨b, hparts, hsame⟩ := ofParts_of_same hbitmap hsequence
  rw [hparts]
  exact reads_pure hsame _

end TripleStore.Adjacency
