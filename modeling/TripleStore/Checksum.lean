import TripleStore.Bytes.LittleEndian
import TripleStore.Error

/-!
# Cyclic redundancy checks

A register is divided by a polynomial bit by bit. Registers hold their
polynomial mirrored, with the highest power in bit 0, so one step serves every
check; a check that takes the bits of a byte from the top also shows its
register the other way round.
-/

namespace TripleStore

/-- A check as catalogues list it, with the polynomial mirrored. -/
structure Crc where
  width : Nat
  polynomial : BitVec 32
  initial : BitVec 32
  final : BitVec 32
  topBitFirst : Bool

namespace Crc

abbrev Register := BitVec 32

def smbus : Crc := ⟨8, 0xE0, 0, 0, true⟩

def arc : Crc := ⟨16, 0xA001, 0, 0, false⟩

def iscsi : Crc := ⟨32, 0x82F63B78, 0xFFFFFFFF, 0xFFFFFFFF, false⟩

variable (crc : Crc)

/-- One step of the division: a bit enters, and the bit that leaves decides
whether the polynomial is taken away. -/
def shift (r : Register) (bit : Bool) : Register :=
  if r.getLsbD 0 != bit then (r >>> 1) ^^^ crc.polynomial else r >>> 1

/-- Bit `i` of a byte in the order in which the check takes them. -/
def bitOf (b : UInt8) (i : Nat) : Bool :=
  b.toBitVec.getLsbD (if crc.topBitFirst then 7 - i else i)

def absorbByte (r : Register) (b : UInt8) : Register :=
  (List.range 8).foldl (fun r i => crc.shift r (crc.bitOf b i)) r

def absorb (r : Register) (bytes : Bytes) : Register :=
  bytes.foldl crc.absorbByte r

/-- The lowest `crc.width` bits in reverse. -/
def mirror (r : Register) : Register :=
  (List.range crc.width).foldl
    (fun m i => if r.getLsbD i then m ||| (1 <<< (crc.width - 1 - i)) else m) 0

/-- The check that a register stands for. -/
def value (r : Register) : Nat :=
  ((if crc.topBitFirst then crc.mirror r else r) ^^^ crc.final).toNat

theorem absorb_append (r : Register) (a b : Bytes) :
    crc.absorb r (a ++ b) = crc.absorb (crc.absorb r a) b :=
  List.foldl_append

end Crc

/-- The checks that a section can be sealed with. -/
inductive Checksum where
  | crc8 | crc16 | crc32
deriving DecidableEq, Inhabited

namespace Checksum

/-- The check used where none is named. -/
def standard : Checksum := crc32

def all : List Checksum := [crc8, crc16, crc32]

def name : Checksum → String
  | crc8 => "crc8"
  | crc16 => "crc16"
  | crc32 => "crc32"

def ofName? (name : String) : Option Checksum := all.find? (·.name == name)

def parse (text : String) : Except Error Checksum :=
  match ofName? text with
  | some kind => .ok kind
  | none => .error (.invalidEncoding (.unknownChecksum text))

def crc : Checksum → Crc
  | crc8 => .smbus
  | crc16 => .arc
  | crc32 => .iscsi

/-- Bytes that the check takes in a trailer. -/
def width : Checksum → Nat
  | crc8 => 1
  | crc16 => 2
  | crc32 => 4

def compute (kind : Checksum) (bytes : Bytes) : Nat :=
  kind.crc.value (kind.crc.absorb kind.crc.initial bytes)

end Checksum

/-- A check in progress. -/
structure Running where
  kind : Checksum
  register : Crc.Register

namespace Running

def start (kind : Checksum) : Running := ⟨kind, kind.crc.initial⟩

def absorb (r : Running) (bytes : Bytes) : Running :=
  { r with register := r.kind.crc.absorb r.register bytes }

def value (r : Running) : Nat := r.kind.crc.value r.register

/-- The value as it stands behind the bytes that it covers. -/
def trailer (r : Running) : Bytes := LittleEndian.encode r.kind.width r.value

theorem value_start_absorb (kind : Checksum) (bytes : Bytes) :
    ((start kind).absorb bytes).value = kind.compute bytes := rfl

theorem absorb_append (r : Running) (a b : Bytes) :
    r.absorb (a ++ b) = (r.absorb a).absorb b := by
  simp [absorb, Crc.absorb_append]

end Running

end TripleStore
