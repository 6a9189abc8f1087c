import TripleStore.Proofs.Bytes.Emits

/-!
# What checks tell apart

The polynomial reaches up to the top of the register, so the top bit shows
whether a step of the division took it away, and the step can be undone. Hence
registers that differ stay different while the same bytes enter
(`eq_of_foldl_shift_eq`), and from what a register was and what it has become
one can tell the bits that entered, if they are not more than it holds
(`eq_of_foldl_shift`). A change in a stretch of bytes that is not longer than
the trailer changes the check (`eq_of_compute_eq`).
-/

namespace TripleStore

namespace Crc

variable {crc : Crc} {r r' : Register} {bit bit' : Bool}
  {bits bits' : List Bool} {k : Nat}

/-- The register holds nothing above the check's width. -/
def Fits (crc : Crc) (r : Register) : Prop :=
  ∀ i, crc.width ≤ i → r.getLsbD i = false

/-- The polynomial reaches up to the top of the register, and nothing goes
beyond it. -/
structure Regular (crc : Crc) : Prop where
  width_pos : 0 < crc.width
  width_le : crc.width ≤ 32
  top : crc.polynomial.getLsbD (crc.width - 1) = true
  polynomial : crc.Fits crc.polynomial
  initial : crc.Fits crc.initial
  final : crc.Fits crc.final

/-- Above the 32 bits of a register there is nothing to look at. -/
theorem fits_of_lt (h : ∀ i < 32, crc.width ≤ i → r.getLsbD i = false) :
    crc.Fits r := by
  intro i hi
  rcases Nat.lt_or_ge i 32 with hlt | hge
  · exact h i hlt hi
  · exact BitVec.getLsbD_of_ge r i hge

/-! ## One step -/

theorem getLsbD_shift (crc : Crc) (r : Register) (bit : Bool) (i : Nat) :
    (crc.shift r bit).getLsbD i =
      (r.getLsbD (i + 1) ^^ ((r.getLsbD 0 ^^ bit) &&
        crc.polynomial.getLsbD i)) := by
  have hout : (r.getLsbD 0 != bit) = (r.getLsbD 0 ^^ bit) := by
    cases r.getLsbD 0 <;> cases bit <;> rfl
  rw [shift, hout]
  split
  · next h =>
      rw [BitVec.getLsbD_xor, BitVec.getLsbD_ushiftRight, h, Bool.true_and,
        Nat.add_comm]
  · next h =>
      rw [Bool.not_eq_true] at h
      rw [BitVec.getLsbD_ushiftRight, h, Bool.false_and, Bool.xor_false,
        Nat.add_comm]

theorem fits_shift (h : crc.Regular) (hr : crc.Fits r) (bit : Bool) :
    crc.Fits (crc.shift r bit) := by
  intro i hi
  rw [getLsbD_shift, hr (i + 1) (Nat.le_succ_of_le hi), h.polynomial i hi,
    Bool.and_false]
  rfl

/-- The top of the register shows whether the polynomial was taken away. -/
theorem top_shift (h : crc.Regular) (hr : crc.Fits r) (bit : Bool) :
    (crc.shift r bit).getLsbD (crc.width - 1) = (r.getLsbD 0 ^^ bit) := by
  have hwidth : crc.width - 1 + 1 = crc.width := Nat.sub_add_cancel h.width_pos
  rw [getLsbD_shift, hwidth, hr crc.width (Nat.le_refl _), h.top, Bool.and_true,
    Bool.false_xor]

/-- Registers that agree from bit `k` on. -/
def Agree (k : Nat) (r r' : Register) : Prop :=
  ∀ i, k ≤ i → r.getLsbD i = r'.getLsbD i

/-- Where registers agree at the top after a step, the same was taken away, and
so they agreed one bit further up before it. -/
theorem agree_of_shift (h : crc.Regular) (hr : crc.Fits r) (hr' : crc.Fits r')
    (hk : k < crc.width)
    (hagree : Agree k (crc.shift r bit) (crc.shift r' bit')) :
    (r.getLsbD 0 ^^ bit) = (r'.getLsbD 0 ^^ bit') ∧ Agree (k + 1) r r' := by
  have hout : (r.getLsbD 0 ^^ bit) = (r'.getLsbD 0 ^^ bit') := by
    rw [← top_shift h hr, ← top_shift h hr']
    exact hagree _ (Nat.le_sub_one_of_lt hk)
  refine ⟨hout, fun i hi => ?_⟩
  obtain ⟨j, rfl⟩ : ∃ j, i = j + 1 :=
    Nat.exists_eq_add_one.mpr (Nat.zero_lt_of_lt hi)
  have hbit := hagree j (Nat.le_of_succ_le_succ hi)
  rw [getLsbD_shift, getLsbD_shift, hout] at hbit
  exact Bool.xor_left_inj.mp hbit

theorem eq_of_agree_zero (h : Agree 0 r r') : r = r' :=
  BitVec.eq_of_getLsbD_eq fun i _ => h i (Nat.zero_le i)

/-- A step with a known bit can be undone. -/
theorem eq_of_shift_eq (h : crc.Regular) (hr : crc.Fits r) (hr' : crc.Fits r')
    (heq : crc.shift r bit = crc.shift r' bit) : r = r' := by
  obtain ⟨hout, hagree⟩ :=
    agree_of_shift h hr hr' h.width_pos (k := 0) fun i _ => by rw [heq]
  refine eq_of_agree_zero fun i _ => ?_
  cases i with
  | zero => exact Bool.xor_left_inj.mp hout
  | succ i => exact hagree (i + 1) (Nat.succ_le_succ (Nat.zero_le i))

/-! ## Bits one after another -/

theorem fits_foldl_shift (h : crc.Regular) (hr : crc.Fits r)
    (bits : List Bool) :
    crc.Fits (bits.foldl crc.shift r) := by
  induction bits generalizing r with
  | nil => exact hr
  | cons bit bits ih => exact ih (fits_shift h hr bit)

/-- Registers that differ stay different while the same bits enter. -/
theorem eq_of_foldl_shift_eq (h : crc.Regular) (hr : crc.Fits r)
    (hr' : crc.Fits r')
    (heq : bits.foldl crc.shift r = bits.foldl crc.shift r') : r = r' := by
  induction bits generalizing r r' with
  | nil => exact heq
  | cons bit bits ih =>
      exact eq_of_shift_eq h hr hr'
        (ih (fits_shift h hr bit) (fits_shift h hr' bit) heq)

/-- What a few bits leave of two registers tells the registers apart above these
bits, and if the registers are the same it tells the bits. -/
theorem agree_of_foldl_shift (h : crc.Regular) (hr : crc.Fits r)
    (hr' : crc.Fits r') (hlength : bits.length = bits'.length)
    (hshort : bits.length ≤ crc.width)
    (heq : bits.foldl crc.shift r = bits'.foldl crc.shift r') :
    Agree bits.length r r' ∧ (r = r' → bits = bits') := by
  -- undone from the end: each step undone shows one bit less of the register
  induction bits generalizing bits' r r' with
  | nil =>
      obtain rfl : bits' = [] := List.eq_nil_of_length_eq_zero hlength.symm
      obtain rfl : r = r' := heq
      exact ⟨fun _ _ => rfl, fun _ => rfl⟩
  | cons bit bits ih =>
      obtain ⟨bit', bits', rfl⟩ :=
        List.exists_cons_of_length_eq_add_one hlength.symm
      obtain ⟨hagree, hbits⟩ := ih (fits_shift h hr bit) (fits_shift h hr' bit')
        (Nat.succ.inj hlength) (Nat.le_of_succ_le hshort) heq
      obtain ⟨hout, hagree⟩ := agree_of_shift h hr hr' hshort hagree
      refine ⟨hagree, ?_⟩
      rintro rfl
      obtain rfl : bit = bit' := Bool.xor_right_inj.mp hout
      rw [hbits rfl]

/-- Bits that enter the same register and leave the same are the same, if they
are not more than it holds. -/
theorem eq_of_foldl_shift (h : crc.Regular) (hr : crc.Fits r)
    (hlength : bits.length = bits'.length) (hshort : bits.length ≤ crc.width)
    (heq : bits.foldl crc.shift r = bits'.foldl crc.shift r) :
    bits = bits' := (agree_of_foldl_shift h hr hr hlength hshort heq).2 rfl

/-! ## Bytes -/

/-- The bits of bytes in the order in which the check takes them. -/
def bitsOf (crc : Crc) (bytes : Bytes) : List Bool :=
  bytes.flatMap fun b => (List.range 8).map (crc.bitOf b)

theorem absorb_eq (crc : Crc) (r : Register) (bytes : Bytes) :
    crc.absorb r bytes = (crc.bitsOf bytes).foldl crc.shift r := by
  induction bytes generalizing r with
  | nil => rfl
  | cons b bytes ih =>
      rw [bitsOf, List.flatMap_cons, List.foldl_append, List.foldl_map,
        ← bitsOf, ← ih]
      rfl

theorem length_bitsOf (crc : Crc) (bytes : Bytes) :
    (crc.bitsOf bytes).length = 8 * bytes.length := by
  induction bytes with
  | nil => rfl
  | cons b bytes ih =>
      rw [bitsOf, List.flatMap_cons, List.length_append, ← bitsOf, ih,
        List.length_map, List.length_range, List.length_cons, Nat.mul_succ,
        Nat.add_comm]

/-- Whichever end comes first, all bits of a byte come. -/
theorem eq_of_bitOf_eq {b b' : UInt8}
    (h : ∀ i < 8, crc.bitOf b i = crc.bitOf b' i) : b = b' := by
  refine UInt8.toBitVec_inj.mp (BitVec.eq_of_getLsbD_eq fun i hi => ?_)
  unfold bitOf at h
  cases htop : crc.topBitFirst with
  | false =>
      have hbit := h i hi
      rwa [htop] at hbit
  | true =>
      have hbit := h (7 - i) (Nat.sub_lt_succ 7 i)
      simp only [htop, if_true, Nat.sub_sub_self (Nat.le_of_lt_succ hi)] at hbit
      exact hbit

theorem bitsOf_injective (crc : Crc) {m m' : Bytes}
    (h : crc.bitsOf m = crc.bitsOf m') : m = m' := by
  induction m generalizing m' with
  | nil =>
      have hlength := congrArg List.length h
      rw [length_bitsOf, length_bitsOf] at hlength
      exact (List.eq_nil_of_length_eq_zero
        (Nat.eq_of_mul_eq_mul_left (by decide) hlength.symm)).symm
  | cons b m ih =>
      cases m' with
      | nil => cases h
      | cons b' m' =>
          rw [bitsOf, bitsOf, List.flatMap_cons, List.flatMap_cons] at h
          obtain ⟨hbyte, hrest⟩ :=
            List.append_inj h (by rw [List.length_map, List.length_map])
          have hb : b = b' :=
            eq_of_bitOf_eq fun i hi =>
              List.map_inj_left.mp hbyte i (List.mem_range.mpr hi)
          rw [hb, ih hrest]

theorem fits_absorb (h : crc.Regular) (hr : crc.Fits r) (bytes : Bytes) :
    crc.Fits (crc.absorb r bytes) := by
  rw [absorb_eq]
  exact fits_foldl_shift h hr _

/-- A stretch of bytes that the register can hold is told from what becomes of
the register, also when other bytes enter behind it. -/
theorem eq_of_absorb_eq (h : crc.Regular) (hr : crc.Fits r) {m m' b : Bytes}
    (hlength : m.length = m'.length) (hshort : 8 * m.length ≤ crc.width)
    (heq : crc.absorb r (m ++ b) = crc.absorb r (m' ++ b)) : m = m' := by
  rw [absorb_append, absorb_append, absorb_eq _ _ b, absorb_eq _ _ b] at heq
  have hsame := eq_of_foldl_shift_eq h (fits_absorb h hr m)
    (fits_absorb h hr m') heq
  rw [absorb_eq, absorb_eq] at hsame
  refine crc.bitsOf_injective (eq_of_foldl_shift h hr ?_ ?_ hsame)
  · rw [length_bitsOf, length_bitsOf, hlength]
  · rwa [length_bitsOf]

/-! ## Values -/

/-- The mirrored register when the lowest `n` bits have gone over. -/
def mirrorLow (crc : Crc) (r : Register) (n : Nat) : Register :=
  (List.range n).foldl
    (fun m i => if r.getLsbD i then m ||| (1 <<< (crc.width - 1 - i)) else m) 0

theorem mirrorLow_succ (crc : Crc) (r : Register) (n : Nat) :
    crc.mirrorLow r (n + 1) =
      if r.getLsbD n then
        crc.mirrorLow r n ||| (1 <<< (crc.width - 1 - n))
          else crc.mirrorLow r n := by
  rw [mirrorLow, List.range_succ, List.foldl_append]
  rfl

theorem getLsbD_single {n : Nat} (hn : n < 32) (i : Nat) :
    (Nat.cast (1 <<< n) : Register).getLsbD i = decide (i = n) := by
  have hbit : (Nat.cast (1 <<< n) : Register).getLsbD i = (decide (i < 32) &&
      (1 <<< n).testBit i) :=
    BitVec.getLsbD_ofNat 32 (1 <<< n) i
  rw [hbit, Nat.one_shiftLeft, Nat.testBit_two_pow]
  by_cases hi : i = n
  · rw [decide_eq_true hi, decide_eq_true hi.symm, decide_eq_true (hi ▸ hn)]
    rfl
  · rw [decide_eq_false hi, decide_eq_false (Ne.symm hi), Bool.and_false]

/-- Bit `i` comes from the bit as far from the other end, once that has gone
over. -/
theorem getLsbD_mirrorLow (h : crc.Regular) (r : Register) {n : Nat}
    (hn : n ≤ crc.width) (i : Nat) :
    (crc.mirrorLow r n).getLsbD i =
      (decide (i < crc.width ∧ crc.width - 1 - i < n) &&
        r.getLsbD (crc.width - 1 - i)) := by
  induction n with
  | zero =>
      rw [decide_eq_false fun hlt => Nat.not_lt_zero _ hlt.2, Bool.false_and]
      exact BitVec.getLsbD_zero
  | succ n ih =>
      have hwidth := h.width_le
      have hsingle := getLsbD_single (n := crc.width - 1 - n) (by omega) i
      have ih := ih (Nat.le_of_succ_le hn)
      rw [mirrorLow_succ]
      by_cases hi : i = crc.width - 1 - n
      · -- the bit that goes over now
        have hplace : crc.width - 1 - i = n := by omega
        rw [hplace] at ih ⊢
        rw [decide_eq_true ⟨by omega, Nat.lt_succ_self n⟩, Bool.true_and]
        rw [decide_eq_false fun hlt => Nat.lt_irrefl n hlt.2,
          Bool.false_and] at ih
        cases hbit : r.getLsbD n with
        | false => exact ih
        | true =>
          rw [if_pos rfl, BitVec.getLsbD_or, hsingle, decide_eq_true hi,
            Bool.or_true]
      · have hother : (i < crc.width ∧ crc.width - 1 - i < n + 1) ↔
            (i < crc.width ∧ crc.width - 1 - i < n) := by omega
        rw [decide_eq_decide.mpr hother, ← ih]
        split
        · rw [BitVec.getLsbD_or, hsingle, decide_eq_false hi, Bool.or_false]
        · rfl

theorem getLsbD_mirror (h : crc.Regular) (r : Register) {i : Nat}
    (hi : i < crc.width) :
    (crc.mirror r).getLsbD i = r.getLsbD (crc.width - 1 - i) := by
  have hlow := getLsbD_mirrorLow h r (Nat.le_refl _) i
  rwa [decide_eq_true ⟨hi, by omega⟩, Bool.true_and] at hlow

theorem fits_mirror (h : crc.Regular) (r : Register) :
    crc.Fits (crc.mirror r) := by
  intro i hi
  have hlow := getLsbD_mirrorLow h r (Nat.le_refl _) i
  rwa [decide_eq_false fun hlt => Nat.not_lt.mpr hi hlt.1,
    Bool.false_and] at hlow

/-- The register as the check shows it. -/
def shown (crc : Crc) (r : Register) : Register :=
  if crc.topBitFirst then crc.mirror r else r

theorem fits_shown (h : crc.Regular) (hr : crc.Fits r) :
    crc.Fits (crc.shown r) := by
  unfold shown
  split
  · exact fits_mirror h r
  · exact hr

theorem eq_of_shown_eq (h : crc.Regular) (hr : crc.Fits r) (hr' : crc.Fits r')
    (heq : crc.shown r = crc.shown r') : r = r' := by
  unfold shown at heq
  split at heq
  · refine BitVec.eq_of_getLsbD_eq fun i _ => ?_
    rcases Nat.lt_or_ge i crc.width with hi | hi
    · have hplace : crc.width - 1 - (crc.width - 1 - i) = i :=
        Nat.sub_sub_self (Nat.le_sub_one_of_lt hi)
      have hlt : crc.width - 1 - i < crc.width := by omega
      rw [← hplace, ← getLsbD_mirror h r hlt, ← getLsbD_mirror h r' hlt, heq]
    · rw [hr i hi, hr' i hi]
  · exact heq

theorem eq_of_value_eq (h : crc.Regular) (hr : crc.Fits r) (hr' : crc.Fits r')
    (heq : crc.value r = crc.value r') : r = r' := by
  have hxor : crc.shown r ^^^ crc.final = crc.shown r' ^^^ crc.final :=
    BitVec.eq_of_toNat_eq heq
  exact eq_of_shown_eq h hr hr' (BitVec.xor_left_inj _ |>.mp hxor)

theorem value_lt_capacity (h : crc.Regular) (hr : crc.Fits r) :
    crc.value r < capacity crc.width := by
  rw [capacity_eq_pow]
  refine Nat.lt_pow_two_of_testBit _ fun i hi => ?_
  have hbit : (crc.shown r ^^^ crc.final).getLsbD i = false := by
    rw [BitVec.getLsbD_xor, fits_shown h hr i hi, h.final i hi]
    rfl
  exact hbit

end Crc

namespace Checksum

theorem regular_crc (kind : Checksum) : kind.crc.Regular := by
  cases kind with
  | crc8 =>
      exact ⟨by decide, by decide, by decide, Crc.fits_of_lt (by decide),
        Crc.fits_of_lt (by decide),
        Crc.fits_of_lt (by decide)⟩
  | crc16 =>
      exact ⟨by decide, by decide, by decide, Crc.fits_of_lt (by decide),
        Crc.fits_of_lt (by decide),
        Crc.fits_of_lt (by decide)⟩
  | crc32 =>
      exact ⟨by decide, by decide, by decide, Crc.fits_of_lt (by decide),
        Crc.fits_of_lt (by decide),
        Crc.fits_of_lt (by decide)⟩

theorem width_crc (kind : Checksum) : kind.crc.width = 8 * kind.width := by
  cases kind <;> rfl

theorem width_pos (kind : Checksum) : 0 < kind.width := by
  cases kind <;> decide

theorem compute_lt_capacity (kind : Checksum) (bytes : Bytes) :
    kind.compute bytes < capacity (8 * kind.width) := by
  rw [← width_crc]
  exact Crc.value_lt_capacity kind.regular_crc
    (Crc.fits_absorb kind.regular_crc kind.regular_crc.initial bytes)

/-- Bytes that differ in one stretch not longer than a trailer have different
checks. -/
theorem eq_of_compute_eq (kind : Checksum) {a m m' b : Bytes}
    (hlength : m.length = m'.length) (hshort : m.length ≤ kind.width)
    (heq : kind.compute (a ++ (m ++ b)) = kind.compute (a ++ (m' ++ b))) :
    m = m' := by
  have hregular := kind.regular_crc
  have hstart := Crc.fits_absorb hregular hregular.initial a
  have hregister := Crc.eq_of_value_eq hregular
    (Crc.fits_absorb hregular hregular.initial _)
    (Crc.fits_absorb hregular hregular.initial _) heq
  rw [Crc.absorb_append, Crc.absorb_append _ _ a] at hregister
  refine Crc.eq_of_absorb_eq hregular hstart hlength ?_ hregister
  rw [width_crc]
  exact Nat.mul_le_mul_left 8 hshort

end Checksum

/-! ## Bytes with their check behind them -/

variable {kind : Checksum} {p p' : Bytes}

theorem length_sealed (kind : Checksum) (p : Bytes) :
    (sealed kind p).length = p.length + kind.width := by
  rw [sealed, List.length_append, Running.trailer, LittleEndian.length_encode]
  rfl

/-- Of bytes that bear the same trailer the checks are the same. -/
theorem compute_eq_of_trailer_eq
    (h : ((Running.start kind).absorb p).trailer =
      ((Running.start kind).absorb p').trailer) :
    kind.compute p = kind.compute p' := by
  have hdecode := congrArg LittleEndian.decode h
  simp only [Running.trailer, Running.value_start_absorb] at hdecode
  rw [show ((Running.start kind).absorb p).kind = kind from rfl,
    show ((Running.start kind).absorb p').kind = kind from rfl,
    LittleEndian.decode_encode, LittleEndian.decode_encode,
    Nat.mod_eq_of_lt (kind.compute_lt_capacity p),
    Nat.mod_eq_of_lt (kind.compute_lt_capacity p')] at hdecode
  exact hdecode

/-- A byte behind the text is one of the trailer. -/
theorem text_of_length_le {a c : Bytes} {b : UInt8}
    (h : sealed kind p = a ++ b :: c) (hle : p.length ≤ a.length) :
    p = a.take p.length := by
  have htake := congrArg (List.take p.length) h
  rwa [sealed, List.take_left, List.take_append_of_le_length hle] at htake

/-- A byte in front of the trailer is one of the text. -/
theorem text_of_lt_length {a c : Bytes} {b : UInt8}
    (h : sealed kind p = a ++ b :: c) (hlt : a.length < p.length) :
    ∃ d, p = a ++ b :: d ∧
      c = d ++ ((Running.start kind).absorb p).trailer := by
  rcases List.append_eq_append_iff.mp h with ⟨d, ha, -⟩ | ⟨d, hp, hrest⟩
  · rw [ha, List.length_append] at hlt
    exact absurd (Nat.le_add_right _ _) (Nat.not_le.mpr hlt)
  · rcases List.cons_eq_append_iff.mp hrest with ⟨rfl, -⟩ | ⟨d, rfl, hc⟩
    · rw [hp, List.append_nil] at hlt
      exact absurd hlt (Nat.lt_irrefl _)
    · exact ⟨d, hp, hc⟩

/-- Two sealed texts do not differ in just one byte, be it of the text or of the
trailer. -/
theorem eq_of_sealed {a c : Bytes} {b b' : UInt8}
    (h : sealed kind p = a ++ b :: c) (h' : sealed kind p' = a ++ b' :: c) :
    b = b' := by
  have hlength : p.length = p'.length := by
    have hsize := congrArg List.length h
    have hsize' := congrArg List.length h'
    rw [length_sealed, List.length_append, List.length_cons] at hsize hsize'
    exact Nat.add_right_cancel (hsize.trans hsize'.symm)
  rcases Nat.lt_or_ge a.length p.length with hlt | hge
  · -- a byte of the text: then both bear the same trailer
    obtain ⟨d, hp, hc⟩ := text_of_lt_length h hlt
    obtain ⟨d', hp', hc'⟩ := text_of_lt_length h' (hlength ▸ hlt)
    have hd : d.length = d'.length := by
      rw [hp, hp', List.length_append, List.length_append] at hlength
      exact Nat.succ.inj (Nat.add_left_cancel hlength)
    obtain ⟨rfl, htrailer⟩ := List.append_inj (hc.symm.trans hc') hd
    have hcompute := compute_eq_of_trailer_eq htrailer
    rw [hp, hp'] at hcompute
    have hbyte : [b] = [b'] := kind.eq_of_compute_eq rfl kind.width_pos hcompute
    exact (List.cons.inj hbyte).1
  · -- a byte of the trailer: then the texts are the same, and so are the trailers
    have hp : p = p' := by
      rw [text_of_length_le h hge, text_of_length_le h' (hlength ▸ hge), hlength]
    subst hp
    exact (List.cons.inj (List.append_cancel_left (h.symm.trans h'))).1

end TripleStore
