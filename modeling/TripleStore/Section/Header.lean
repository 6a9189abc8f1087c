import TripleStore.Section.Properties
import TripleStore.Text.Numeral
import TripleStore.Vbyte

/-!
# Section headers

Every section opens with a header: four magic bytes, a byte for the kind and one
for the version, the number of properties, then each key and value as a text
with its size in front, and a 16-bit check of all that. Reading accepts any
order of keys, and of a key that comes twice the last value counts.
-/

namespace TripleStore.Section

/-- The kind that a tag stands for. -/
def Kind.parseTag (tag : UInt8) : Except Error Kind :=
  match ofTag? tag with
  | some kind => .ok kind
  | none => .error (.invalidEncoding (.unknownKind tag))

structure Header where
  kind : Kind
  version : UInt8
  properties : Properties

namespace Header

def magic : Bytes := [0x24, 0x54, 0x52, 0x49]

/-- The only version there is. -/
def currentVersion : UInt8 := 1

def sealKind : Checksum := .crc16

/-- The most bytes that a key or a value may take. -/
def maxTextSize : Nat := 65536

def new (kind : Kind) : Header := ⟨kind, currentVersion, .empty⟩

def set (h : Header) (key value : String) : Header :=
  { h with properties := h.properties.insert key value }

def get? (h : Header) (key : String) : Option String := h.properties.get? key

/-- The property at `key`, as `read?` reads it. -/
def parse {α : Type} (h : Header) (key : String) (read? : String → Option α) :
    Except Error α :=
  match h.get? key with
  | none => .error (.invalidEncoding (.missingProperty h.kind key))
  | some raw =>
    match read? raw with
    | none => .error (.invalidEncoding (.malformedProperty h.kind key raw))
    | some a => .ok a

def parseNat (h : Header) (key : String) : Except Error Nat :=
  h.parse key (Text.Numeral.unsigned? 64)

def parseId (h : Header) (key : String) : Except Error Id :=
  return (← h.parseNat key).toUInt64

/-- The check that seals the payload. -/
def checksum (h : Header) : Except Error Checksum :=
  match h.get? "checksum" with
  | none => .ok .standard
  | some name => Checksum.parse name

def require (h : Header) (kind : Kind) : Except Error Header :=
  if h.kind = kind then .ok h
  else .error (.invalidEncoding (.unexpectedKind kind h.kind))

/-! ## Writing -/

def textBytes (text : String) : Bytes := text.toUTF8.data.toList

def writeText (text : String) : Emit Unit := do
  let _ ← Vbyte.write (textBytes text).length
  Emit.writeAll (textBytes text)

def write (h : Header) : Emit Unit := do
  Emit.restart sealKind
  Emit.writeAll magic
  Emit.writeAll [h.kind.tag, h.version]
  let _ ← Vbyte.write h.properties.size
  h.properties.entries.forM fun e => do
    writeText e.1
    writeText e.2
  Emit.trailer

/-! ## Reading -/

def readText : Scan String := do
  let size ← Vbyte.read 64
  if maxTextSize < size then
    throw (.invalidEncoding (.longProperty size))
  let bytes ← Scan.readExact size
  match String.fromUTF8? bytes.toByteArray with
  | some text => return text
  | none => throw (.invalidEncoding .propertyNotText)

/-- Reads `count` properties more. -/
def readProperties (p : Properties) (count : Nat) : Scan Properties := do
  match count with
  | 0 => return p
  | count + 1 =>
    let key ← readText
    let value ← readText
    readProperties (p.insert key value) count

def readKind : Scan (Kind × UInt8) := do
  let tag ← Scan.byte
  let version ← Scan.byte
  let kind ← Kind.parseTag tag
  if version = currentVersion then return (kind, version)
  else throw (.invalidEncoding (.unsupportedVersion kind version))

def read (strict : Bool) : Scan Header := do
  Scan.restart sealKind
  if (← Scan.readExact magic.length) ≠ magic then
    throw (.invalidEncoding .badMagic)
  let (kind, version) ← readKind
  let properties ← readProperties .empty (← Vbyte.read 64)
  Scan.closePart .header strict
  return ⟨kind, version, properties⟩

end Header

end TripleStore.Section
