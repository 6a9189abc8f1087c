import TripleStore.Section.Header
import TripleStore.Sequence.Basic

/-!
# Sequence sections

The payload is the width in one byte, the number of values, and then the words,
with nothing past the last value. Reading keeps the words as they are stored.
-/

namespace TripleStore.Sequence

/-- Word `i` without the bits past the last value. -/
def word (s : Sequence) (i : Nat) : UInt64 :=
  Word.low (s.words.word i) (s.size * s.width - Word.width * i)

def write (s : Sequence) (kind : Checksum) : Emit Unit := do
  ((Section.Header.new .sequence).set "checksum" kind.name).write
  Emit.restart kind
  Emit.writeAll [s.width.toUInt8]
  let _ ← Vbyte.write s.size
  (List.range (wordsFor (s.size * s.width))).forM fun i =>
    Emit.writeAll (wordBytes (s.word i))
  Emit.trailer

def toBytes (s : Sequence) : Bytes := (s.write .standard).toBytes

def read (config : Config) : Scan Sequence := do
  let header ← (← Section.Header.read config.strict).require .sequence
  Scan.restart (← header.checksum)
  let width := (← Scan.byte).toNat
  if h : width ≤ Word.width then
    let size ← Vbyte.read 64
    if capacity 64 ≤ size * width then
      throw (.invalidEncoding (.sequenceSize size))
    let words ← Words.read config.loadMode (wordsFor (size * width))
    Scan.closePart .sequence config.strict
    return ⟨words.val, width, size, h, words.property⟩
  else
    throw (.invalidEncoding (.sequenceWidth width))

/-- The sequence whose section takes up all of `bytes`. -/
def ofBytes (bytes : Bytes) : Outcome Sequence :=
  (Scan.run (Scan.whole .sequence (read .standard)) (.ofBytes bytes)).1

def load (source : Source) : Outcome Sequence := do
  ofBytes (← Scan.collect source)

end TripleStore.Sequence
