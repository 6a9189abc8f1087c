import TripleStore.Proofs.Bitmap.Building
import TripleStore.Proofs.Bitmap.Section
import TripleStore.Proofs.Bytes.Passes
import TripleStore.Proofs.Outcome

/-!
# Bitmaps are their bits

Words can hold more than a bitmap has bits, and the same bits can come from
words, from a builder or from a section. None of that can be told from what is
asked of a bitmap: all that hold the same bits are equal, answer alike and are
saved alike, and no others are equal (`determined_by_bits`).
-/

namespace TripleStore

/-- Words that were read hold what came next. -/
theorem Words.word_of_read {mode : LoadMode} {n : Nat} {s s' : Scan.State}
    {w : { w : Words // w.size = n }} {word : Nat →
      UInt64} (h : read mode n s = .ok w s')
    (hnext : rowBytes word n <+: s.source.rest) :
    ∀ i < n, w.val.word i = word i := by
  obtain ⟨⟨backing, start⟩, s₁, hrange, hw⟩ := Scan.bind_eq_ok.mp h
  cases hw
  obtain ⟨_, _, hget, hrange⟩ := Scan.bind_eq_ok.mp hrange
  cases hget
  split at hrange
  · cases hrange
  · cases hrange
    exact fun i hi => word_of_prefix mode hnext hi

/-- A section whose header has been read goes on with its payload. -/
theorem Section.payload_of_header {α : Type} {kind : Section.Kind}
    {strict : Bool} {body : Scan α} {a : α} {before header after : Scan.State}
    {found : Section.Header}
    (hheader : Section.Header.read strict before = .ok found header) (h : (do
      let named ← (← Section.Header.read strict).require kind
      Scan.restart (← named.checksum)
      body) before = .ok a after) :
    ∃ running, body { header with running } = .ok a after := by
  obtain ⟨_, _, hfound, hrequired⟩ := Scan.bind_eq_ok.mp h
  rw [hheader] at hfound
  cases hfound
  obtain ⟨_, _, hrequire, hnamed⟩ := Scan.bind_eq_ok.mp hrequired
  obtain ⟨-, rfl⟩ := Scan.lift_eq_ok.mp hrequire
  obtain ⟨checksum, _, hname, hrestarted⟩ := Scan.bind_eq_ok.mp hnamed
  obtain ⟨-, rfl⟩ := Scan.lift_eq_ok.mp hname
  obtain ⟨_, _, hrestart, hbody⟩ := Scan.bind_eq_ok.mp hrestarted
  cases hrestart
  exact ⟨.start checksum, hbody⟩

namespace Bitmap

/-! ## What can be asked -/

/-- Two bitmaps answer everything alike and are saved alike. -/
structure Interchangeable (b c : Bitmap) : Prop where
  equal : (b == c) = true
  size : b.size = c.size
  get : ∀ i, b.get i = c.get i
  rankBefore : ∀ i, b.rankBefore i = c.rankBefore i
  rank1 : ∀ i, b.rank1 i = c.rank1 i
  rank0 : ∀ i, b.rank0 i = c.rank0 i
  select1 : ∀ k, b.select1 k = c.select1 k
  ones : b.ones = c.ones
  zeros : b.zeros = c.zeros
  write : ∀ kind, b.write kind = c.write kind

variable {b c : Bitmap}

theorem Same.get (h : Same b c) (i : Nat) : b.get i = c.get i := by
  rw [Bitmap.get, Bitmap.get, ← h.size]
  split
  · next hi => rw [h.bit hi]
  · rfl

theorem Same.rankBefore (h : Same b c) (i : Nat) :
    b.rankBefore i = c.rankBefore i := by
  rw [Bitmap.rankBefore, Bitmap.rankBefore, h.directory, funext h.word, h.size]

theorem Same.interchangeable (h : Same b c) : b.Interchangeable c := by
  have hrank1 : ∀ i, b.rank1 i = c.rank1 i := fun i => h.rankBefore (i + 1)
  have hones : b.ones = c.ones := congrArg Directory.ones h.directory
  exact {
    equal := h.beq
    size := h.size
    get := h.get
    rankBefore := h.rankBefore
    rank1 := hrank1
    rank0 := fun i => by rw [rank0, rank0, hrank1, h.size]
    select1 := h.select1
    ones := hones
    zeros := by rw [zeros, zeros, h.size, hones]
    write := h.write }

/-! ## What equality compares -/

theorem same_of_beq (h : (b == c) = true) : Same b c := by
  have h :
      (b.size == c.size &&
        (List.range (wordsFor b.size)).all fun i => b.word i == c.word i) =
          true := h
  rw [Bool.and_eq_true, beq_iff_eq, List.all_eq_true] at h
  obtain ⟨hsize, hwords⟩ := h
  refine same_of_bit hsize fun p hp => ?_
  have hrow : bitRow b.word p = bitRow c.word p := by
    rw [bitRow, bitRow,
      beq_iff_eq.mp (hwords _ (List.mem_range.mpr (div_lt_wordsFor hp)))]
  rwa [bitRow_word, bitRow_word, ← hsize, decide_eq_true hp, Bool.true_and,
    Bool.true_and] at hrow

/-- Equal bitmaps have the same bit everywhere. -/
theorem beq_iff_get :
    (b == c) = true ↔ b.size = c.size ∧ ∀ i, b.get i = c.get i := by
  constructor
  · intro h
    exact ⟨(same_of_beq h).size, (same_of_beq h).get⟩
  · rintro ⟨hsize, hget⟩
    refine (same_of_bit hsize fun i hi => ?_).beq
    have hi' := hget i
    rw [get, get, if_pos hi, if_pos (hsize ▸ hi)] at hi'
    exact Except.ok.inj hi'

/-! ## Where the bits come from -/

/-- The payload of a section that holds `bits`: their number, and words that
they stand in. What the last word holds behind them is left open. -/
def Payload (bits : List Bool) (bytes : Bytes) : Prop :=
  ∃ stored : Nat → UInt64,
    (∀ i < bits.length, bitRow stored i = bits.getD i false) ∧
    bytes = LittleEndian.encode 8 bits.length ++
      rowBytes stored (wordsFor bits.length)

/-- The bitmap was obtained from `bits`, whichever way. -/
inductive Obtained (bits : List Bool) (b : Bitmap) : Prop where
  /-- Cut out of words that begin with the bits, whatever else they hold. -/
  | cut (words : Array UInt64) (hbits : ∀ i < bits.length, storedRow words i =
    bits.getD i false)
      (h : ofWords words bits.length = .ok b)
  | built (h : ofBits bits = .ok b)
  | finished (builder : Builder)
    (hpush : Builder.empty.pushAll bits = .ok builder)
      (h : builder.finish = b)
  /-- Read from a section in whose payload the bits stand, copied or left in
  their place. -/
  | read (config : Config) (before header after : Scan.State)
    (found : Section.Header) (payload : Bytes)
      (hheader : Section.Header.read config.strict before = .ok found header)
      (hbits : Payload bits payload) (hpayload : payload <+: header.source.rest)
      (h : read config before = .ok b after)

theorem holds_of_ofWords {words : Array UInt64} {bits : List Bool}
    (hbits : ∀ i < bits.length, storedRow words i = bits.getD i false)
    (h : ofWords words bits.length = .ok b) : b.Holds bits := by
  unfold ofWords at h
  split at h
  · cases h
  split at h
  · cases h
  · cases h
    refine ⟨rfl, fun i hi => ?_⟩
    exact (storedRow_extract (div_lt_wordsFor hi)).trans (hbits i hi)

theorem bit_of_words {mode : LoadMode} {n : Nat} {hle : n ≤ maxBits}
    {rest : Scan Unit} {stored : Nat → UInt64} {before after : Scan.State}
    (h : (do
      let words ← Words.read mode (wordsFor n)
      rest
      return ofParts words.val n words.property hle : Scan Bitmap)
        before = .ok b after)
    (hnext : rowBytes stored (wordsFor n) <+: before.source.rest) :
    b.size = n ∧ ∀ i < n, b.bit i = bitRow stored i := by
  obtain ⟨words, _, hread, hrest⟩ := Scan.bind_eq_ok.mp h
  obtain ⟨_, _, -, hb⟩ := Scan.bind_eq_ok.mp hrest
  cases hb
  refine ⟨rfl, fun i hi => ?_⟩
  show Word.bit (words.val.word (i / Word.width))
    (i % Word.width) = bitRow stored i
  rw [Words.word_of_read hread hnext _ (div_lt_wordsFor hi), bitRow]

theorem holds_of_read {config : Config} {before header after : Scan.State}
    {found : Section.Header} {bits : List Bool} {payload : Bytes}
    (hsize : bits.length ≤ maxBits)
    (hheader : Section.Header.read config.strict before = .ok found header)
    (hbits : Payload bits payload) (hpayload : payload <+: header.source.rest)
    (h : read config before = .ok b after) : b.Holds bits := by
  obtain ⟨stored, hstored, rfl⟩ := hbits
  obtain ⟨running, hsized⟩ := Section.payload_of_header hheader h
  obtain ⟨sizeBytes, _, hread, hworded⟩ := Scan.bind_eq_ok.mp hsized
  obtain ⟨_, _, ⟨rfl, -, hlength⟩, hnext, rfl⟩ :=
    (Scan.passes_readExact 8).ok hread
  -- the number of bits stands in the first eight bytes, the words behind them
  obtain rfl : sizeBytes = LittleEndian.encode 8 bits.length := by
    have hencode := (List.prefix_append _ _).trans hpayload
    have hlengths :
        sizeBytes.length = (LittleEndian.encode 8 bits.length).length := by
      rw [hlength, LittleEndian.length_encode]
    exact (List.prefix_of_prefix_length_le hnext hencode
      (Nat.le_of_eq hlengths)).eq_of_length hlengths
  have hdecode : LittleEndian.decode (LittleEndian.encode 8 bits.length) =
      bits.length := by
    have hfits : bits.length < capacity (8 * 8) :=
      Nat.lt_of_le_of_lt hsize (by decide)
    rw [LittleEndian.decode_encode, Nat.mod_eq_of_lt hfits]
  have hreach :
      ¬ maxBits < LittleEndian.decode (LittleEndian.encode 8 bits.length) := by
    rw [hdecode]
    exact Nat.not_lt.mpr hsize
  rw [dif_neg hreach] at hworded
  obtain ⟨hsize', hbit⟩ := bit_of_words hworded (by
    rw [hdecode]
    exact Source.prefix_rest_advance hpayload)
  rw [hdecode] at hsize' hbit
  refine ⟨hsize', fun i hi => ?_⟩
  rw [hsize'] at hi
  rw [hbit i hi, hstored i hi]

theorem Obtained.holds {bits : List Bool} (hsize : bits.length ≤ maxBits)
    (h : Obtained bits b) :
    b.Holds bits := by
  cases h with
  | cut words hbits h => exact holds_of_ofWords hbits h
  | built h => exact (holds_of_ofBits h).1
  | finished builder hpush h =>
    exact h ▸ (holds_of_ofBits (ofBits_of_pushAll hpush)).1
  | read config before header after found payload hheader hbits hpayload h =>
      exact holds_of_read hsize hheader hbits hpayload h

theorem same_of_holds {bits : List Bool} (hb : b.Holds bits)
    (hc : c.Holds bits) : Same b c := by
  have hsize : b.size = c.size := hb.size.trans hc.size.symm
  refine same_of_bit hsize fun i hi => ?_
  rw [hb.bit i hi, hc.bit i (hsize ▸ hi)]

theorem Holds.toList {bits : List Bool} (h : b.Holds bits) :
    b.toList = bits := by
  apply List.ext_getElem
  · rw [Bitmap.toList, List.length_map, List.length_range, h.size]
  · intro i hi hi'
    have hlt : i < b.size := by rwa [h.size]
    simp [Bitmap.toList, h.bit i hlt, hi']

theorem exists_ofWords {words : Array UInt64} {n : Nat} (hsize : n ≤ maxBits)
    (hwords : wordsFor n ≤ words.size) : ∃ b, ofWords words n = .ok b := by
  rw [ofWords, dif_neg (Nat.not_lt.mpr hsize), dif_neg (Nat.not_lt.mpr hwords)]
  exact ⟨_, rfl⟩

/-- Bits that are not too many can be put into a bitmap each way, with other
bits behind them where they come in words. All bitmaps that were obtained from
them are their list, cannot be told apart and are saved alike; and bitmaps are
equal just if they have the same size and the same bit at every position. -/
theorem determined_by_bits {bits : List Bool} (hsize : bits.length ≤ maxBits) :
    ((∃ b, ofBits bits = .ok b) ∧
      (∃ builder, Builder.empty.pushAll bits = .ok builder) ∧
      ∀ words : Array UInt64, wordsFor bits.length ≤ words.size →
        ∃ b, ofWords words bits.length = .ok b) ∧
    (∀ b, Obtained bits b → b.toList = bits) ∧
    (∀ b c, Obtained bits b → Obtained bits c → b.Interchangeable c) ∧
    ∀ b c : Bitmap, (b == c) = true ↔
      b.size = c.size ∧ ∀ i, b.get i = c.get i := by
  refine ⟨⟨?_, ?_, fun words => exists_ofWords hsize⟩, fun b h =>
    (h.holds hsize).toList, fun b c hb hc => ?_, fun b c => beq_iff_get⟩
  · obtain ⟨b, hb, -⟩ := ofBits_spec hsize
    exact ⟨b, hb⟩
  · obtain ⟨builder, hpush, -⟩ :=
      Builder.pushAll_spec Builder.holds_empty bits (by simpa using hsize)
    exact ⟨builder, hpush⟩
  · exact (same_of_holds (hb.holds hsize) (hc.holds hsize)).interchangeable

/-- Five stray bits and a stray word on one side, one stray bit in a map on the
other. -/
theorem determined_by_bits_stray : ∃ b c after, ofWords #[0xFD, 7] 3 = .ok b ∧
    read ⟨.spo, .mapped, .lazy, .crc32, true⟩ (.ofSource (.ofBacking
      ⟨((Section.Header.leaf .bitmap .crc8).encode ++
        sealed .crc8 (LittleEndian.encode 8 3 ++ wordBytes 0x0D)).toArray,
          .mapped⟩)) = .ok c after ∧
    b.toList = [true, false, true] ∧ b.Interchangeable c := by
  obtain ⟨-, hlist, hsame, -⟩ :=
    determined_by_bits (show [true, false, true].length ≤ maxBits by decide)
  obtain ⟨b, hb⟩ : ∃ b, ofWords #[0xFD, 7] 3 = .ok b :=
    exists_ofWords (by decide) (by decide)
  have hcut : Obtained [true, false, true] b := .cut #[0xFD, 7] (by decide) hb
  generalize hbacking : (⟨((Section.Header.leaf .bitmap .crc8).encode ++
    sealed .crc8 (LittleEndian.encode 8 3 ++ wordBytes 0x0D)).toArray,
      .mapped⟩ : Backing) = backing
  have heval :
      ((Scan.run (read ⟨.spo, .mapped, .lazy, .crc32, true⟩)
        (.ofBacking backing)).1.result >>= fun c =>
          .ok c.size).toOption = some 3 := by
    rw [← hbacking]
    decide +kernel
  obtain ⟨c, hc, -⟩ := bind_eq_ok.mp (toOption_eq_some.mp heval)
  obtain ⟨after, hread⟩ := Scan.run_eq_ok.mp hc
  have hrest :
      (Source.ofBacking backing).rest =
        (Section.Header.leaf .bitmap .crc8).encode ++
      sealed .crc8 (LittleEndian.encode 8 3 ++ wordBytes 0x0D) := by
    rw [← hbacking]; rfl
  obtain ⟨found, -, hheader⟩ :=
    (Section.Header.reads_read (Section.Header.portable_leaf .bitmap .crc8)
    true (.start .standard)).takes (.ofBacking backing) []
      (Source.steady_ofBacking _)
    (hrest ▸ List.prefix_append _ _)
  have hpayload :
      Payload [true, false, true] (LittleEndian.encode 8 3 ++ wordBytes 0x0D) :=
    ⟨fun _ => 0x0D, by decide, by decide⟩
  generalize hheaderBytes :
    (Section.Header.leaf .bitmap .crc8).encode = headerBytes at hrest hheader
  have hnext : LittleEndian.encode 8 3 ++ wordBytes 0x0D <+:
      ((Source.ofBacking backing).advance headerBytes.length).rest := by
    rw [Source.rest_advance, hrest, List.drop_left]
    exact List.prefix_append _ _
  have hmapped : Obtained [true, false, true] c :=
    .read ⟨.spo, .mapped, .lazy, .crc32, true⟩ (.ofSource (.ofBacking backing))
      _ after found _ hheader
      hpayload hnext hread
  exact ⟨b, c, after, hb, hread, hlist b hcut, hsame b c hcut hmapped⟩

end Bitmap

end TripleStore
