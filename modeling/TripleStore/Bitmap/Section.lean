import TripleStore.Bitmap.Basic
import TripleStore.Section.Header

/-!
# Bitmap sections

The payload is the number of bits in eight bytes and then the words, without
stray bits.
-/

namespace TripleStore.Bitmap

def write (b : Bitmap) (kind : Checksum) : Emit Unit := do
  ((Section.Header.new .bitmap).set "checksum" kind.name).write
  Emit.restart kind
  Emit.writeAll (LittleEndian.encode 8 b.size)
  (List.range (wordsFor b.size)).forM fun i =>
    Emit.writeAll (wordBytes (b.word i))
  Emit.trailer

def toBytes (b : Bitmap) : Bytes := (b.write .standard).toBytes

def read (config : Config) : Scan Bitmap := do
  let header ← (← Section.Header.read config.strict).require .bitmap
  Scan.restart (← header.checksum)
  let size := LittleEndian.decode (← Scan.readExact 8)
  if h : maxBits < size then
    throw (.invalidEncoding (.bitmapSize size))
  else
    let words ← Words.read config.loadMode (wordsFor size)
    Scan.closePart .bitmap config.strict
    return ofParts words.val size words.property (Nat.le_of_not_lt h)

/-- The bitmap whose section takes up all of `bytes`. -/
def ofBytes (bytes : Bytes) : Outcome Bitmap :=
  (Scan.run (Scan.whole .bitmap (read .standard)) (.ofBytes bytes)).1

def load (source : Source) : Outcome Bitmap := do
  ofBytes (← Scan.collect source)

end TripleStore.Bitmap
