import TripleStore.Proofs.Section.Corruption

/-!
# Bursts

The catalogue of checks divides from the top of its register and takes the
polynomial as it is written. A mirrored register goes along with it bit by bit
(`Crc.Entry.mirrors_foldl`), so that the checks here are those of the catalogue
(`Checksum.compute_eq_check`). Whatever stands before and behind, a change
within a stretch that is not longer than the check shows in it, and so does each
single bit that is flipped (`bursts_detected`).
-/

namespace TripleStore

/-! ## The catalogue -/

/-- A check as the catalogue lists it. -/
structure Crc.Entry where
  width : Nat
  /-- The polynomial without its highest power, the next one in the top bit. -/
  poly : BitVec width
  init : BitVec width
  /-- Whether a byte enters from its lowest bit on. -/
  refin : Bool
  /-- Whether the register is read the other way round. -/
  refout : Bool
  xorout : BitVec width

namespace Crc.Entry

variable (e : Entry)

/-- One step of the division. -/
def step (r : BitVec e.width) (bit : Bool) : BitVec e.width :=
  if r.msb != bit then r <<< 1 ^^^ e.poly else r <<< 1

/-- The bits of a byte in the order in which they enter. -/
def bits (b : UInt8) : List Bool :=
  let bits := (List.range 8).map b.toBitVec.getLsbD
  if e.refin then bits else bits.reverse

def divide (bytes : Bytes) : BitVec e.width :=
  (bytes.flatMap e.bits).foldl e.step e.init

def check (bytes : Bytes) : Nat :=
  ((if e.refout then (e.divide bytes).reverse else e.divide bytes) ^^^
    e.xorout).toNat

/-! ## Mirrored registers -/

variable {e} {crc : Crc} {r : Register} {t : BitVec e.width}

/-- The one register holds from its lowest bit on what the other holds from its
top on. -/
def Mirrors (r : Register) {w : Nat} (t : BitVec w) : Prop :=
  ∀ i, r.getLsbD i = t.getMsbD i

/-- The check is the one that the catalogue lists, with its registers mirrored. -/
structure Lists (e : Entry) (crc : Crc) : Prop where
  regular : crc.Regular
  width : crc.width = e.width
  polynomial : Mirrors crc.polynomial e.poly
  initial : Mirrors crc.initial e.init
  final : ∀ i, crc.final.getLsbD i = e.xorout.getLsbD i
  enters : crc.topBitFirst = !e.refin
  leaves : crc.topBitFirst = !e.refout

theorem mirrors_step (h : e.Lists crc) (hr : Mirrors r t) (bit : Bool) :
    Mirrors (crc.shift r bit) (e.step t bit) := by
  intro i
  have hout : (r.getLsbD 0 ^^ bit) = (t.msb != bit) := by
    rw [hr 0]
    rfl
  rw [getLsbD_shift, hout, hr, h.polynomial, step]
  cases t.msb != bit with
  | false =>
      show (t.getMsbD (i + 1) ^^ false) = (t <<< 1).getMsbD i
      rw [Bool.xor_false, BitVec.getMsbD_shiftLeft]
  | true =>
      show (t.getMsbD (i + 1) ^^ e.poly.getMsbD i) =
        (t <<< 1 ^^^ e.poly).getMsbD i
      rw [BitVec.getMsbD_xor, BitVec.getMsbD_shiftLeft]

/-- However many bits enter, the registers stay mirrored. -/
theorem mirrors_foldl (h : e.Lists crc) (hr : Mirrors r t) (bits : List Bool) :
    Mirrors (bits.foldl crc.shift r) (bits.foldl e.step t) := by
  induction bits generalizing r t with
  | nil => exact hr
  | cons bit bits ih => exact ih (mirrors_step h hr bit)

theorem map_bitOf (h : e.Lists crc) (b : UInt8) :
    (List.range 8).map (crc.bitOf b) = e.bits b := by
  unfold bits bitOf
  rw [h.enters]
  cases e.refin with
  | true => rfl
  | false => rfl

theorem mirrors_divide (h : e.Lists crc) (bytes : Bytes) :
    Mirrors (crc.absorb crc.initial bytes) (e.divide bytes) := by
  have hbits : crc.bitsOf bytes = bytes.flatMap e.bits :=
    congrArg (bytes.flatMap ·) (funext fun b => map_bitOf h b)
  rw [absorb_eq, hbits]
  exact mirrors_foldl h h.initial _

/-- A mirrored register is shown as the catalogue's is. -/
theorem getLsbD_shown (h : e.Lists crc) (hr : Mirrors r t) (i : Nat) :
    (crc.shown r).getLsbD i =
      (if e.refout then t.reverse else t).getLsbD i := by
  unfold shown
  rw [h.leaves]
  cases e.refout with
  | true =>
      show r.getLsbD i = t.reverse.getLsbD i
      rw [hr i, BitVec.getLsbD_reverse]
  | false =>
      show (crc.mirror r).getLsbD i = t.getLsbD i
      rcases Nat.lt_or_ge i e.width with hi | hi
      · rw [getLsbD_mirror h.regular r (h.width ▸ hi), hr, h.width,
          BitVec.getLsbD_eq_getMsbD t i, decide_eq_true hi, Bool.true_and]
      · rw [fits_mirror h.regular r i (h.width ▸ hi),
          BitVec.getLsbD_of_ge t i hi]

theorem value_eq_check (h : e.Lists crc) (bytes : Bytes) :
    crc.value (crc.absorb crc.initial bytes) = e.check bytes := by
  refine Nat.eq_of_testBit_eq fun i => ?_
  show (crc.shown _ ^^^ crc.final).getLsbD i = (_ ^^^ e.xorout).getLsbD i
  rw [BitVec.getLsbD_xor, BitVec.getLsbD_xor,
    getLsbD_shown h (mirrors_divide h bytes), h.final]

/-- Above the top of either register there is nothing to compare. -/
theorem mirrors_of_lt {w : Nat} {t : BitVec w} (hw : w ≤ 32)
    (h : ∀ i < 32, r.getLsbD i = t.getMsbD i) :
    Mirrors r t := by
  intro i
  rcases Nat.lt_or_ge i 32 with hlt | hge
  · exact h i hlt
  · rw [BitVec.getLsbD_of_ge r i hge,
      BitVec.getMsbD_of_ge t i (Nat.le_trans hw hge)]

end Crc.Entry

namespace Checksum

/-- The checks under their names in the catalogue: SMBUS, ARC and ISCSI. -/
def entry : Checksum → Crc.Entry
  | crc8 => ⟨8, 0x07, 0, false, false, 0⟩
  | crc16 => ⟨16, 0x8005, 0, true, true, 0⟩
  | crc32 => ⟨32, 0x1EDC6F41, 0xFFFFFFFF, true, true, 0xFFFFFFFF⟩

theorem lists_entry (kind : Checksum) : kind.entry.Lists kind.crc := by
  cases kind <;> exact ⟨regular_crc _, rfl,
    Crc.Entry.mirrors_of_lt (by decide) (by decide),
    Crc.Entry.mirrors_of_lt (by decide) (by decide), fun _ => rfl, rfl, rfl⟩

theorem compute_eq_check (kind : Checksum) (bytes : Bytes) :
    kind.compute bytes = kind.entry.check bytes :=
  Crc.Entry.value_eq_check kind.lists_entry bytes

/-- The catalogue names the check of the digits from 1 to 9. -/
example :
    all.map (·.compute [0x31, 0x32, 0x33, 0x34, 0x35, 0x36, 0x37, 0x38, 0x39]) =
    [0xF4, 0xBB3D, 0xE3069283] := by decide +kernel

/-- A bit that is flipped is a burst within one byte. -/
theorem compute_flipBit_ne (kind : Checksum) {bytes : Bytes} {i : Nat}
    (h : i < 8 * bytes.length) :
    kind.compute (flipBit bytes i) ≠ kind.compute bytes := by
  obtain ⟨a, b, b', c, hne, hbytes, hflip⟩ :=
    @exists_flipBit [] bytes i (Nat.zero_le _) h
  rw [List.nil_append] at hflip
  rw [hflip, hbytes]
  intro heq
  have hbyte : [b'] = [b] :=
    kind.eq_of_compute_eq (b := c) rfl kind.width_pos heq
  exact hne (List.singleton_inj.mp hbyte).symm

end Checksum

/-- Each check is the one in the catalogue. It tells any two messages apart that
differ only within one stretch not longer than the check, and so it shows each
single bit that is flipped. -/
theorem bursts_detected (kind : Checksum) :
    (∀ bytes, kind.compute bytes = kind.entry.check bytes) ∧
    (∀ a m m' b : Bytes, m ≠ m' → m.length = m'.length → m.length ≤ kind.width →
      kind.compute (a ++ m ++ b) ≠ kind.compute (a ++ m' ++ b)) ∧
    ∀ bytes i, i < 8 * bytes.length →
    kind.compute (flipBit bytes i) ≠ kind.compute bytes := by
  refine ⟨kind.compute_eq_check, fun a m m' b hne hlength hshort heq => ?_,
    fun bytes i => kind.compute_flipBit_ne⟩
  rw [List.append_assoc, List.append_assoc] at heq
  exact hne (kind.eq_of_compute_eq hlength hshort heq)

/-- Two digits that are swapped, and one bit of the second digit. -/
theorem bursts_detected_in_digits :
    ([0x33, 0x34] : Bytes) ≠ [0x34, 0x33] ∧
    ([0x33, 0x34] : Bytes).length ≤ Checksum.crc16.width ∧
    Checksum.crc16.compute ([0x31, 0x32] ++ [0x33, 0x34] ++ [0x35]) ≠
      Checksum.crc16.compute ([0x31, 0x32] ++ [0x34, 0x33] ++ [0x35]) ∧
    Checksum.crc16.compute (flipBit [0x31, 0x32] 11) ≠
      Checksum.crc16.compute [0x31, 0x32] :=
  ⟨by decide, by decide,
    (bursts_detected .crc16).2.1 [0x31, 0x32] [0x33, 0x34] [0x34, 0x33] [0x35]
      (by decide) rfl (by decide),
    (bursts_detected .crc16).2.2 [0x31, 0x32] 11 (by decide)⟩

end TripleStore
