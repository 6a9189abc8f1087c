import TripleStore.Bitmap.Directory
import TripleStore.Words

/-!
# Bitmaps

A bitmap is a fixed row of bits that counts its ones up to a position (`rank1`)
and finds a one by its number (`select1`). The words may hold stray bits past
the end; nothing that is asked of a bitmap sees them. The directory depends on
the bits alone.
-/

namespace TripleStore

/-- The words' bits with everything from `size` on cleared. -/
def maskedWord (words : Words) (size i : Nat) : UInt64 :=
  Word.low (words.word i) (size - Word.width * i)

/-- The most bits whose blocks a 32-bit sample can number. -/
def maxBits : Nat := (capacity 32 - 1) * Block.bits

structure Bitmap where
  words : Words
  size : Nat
  directory : Directory
  size_words : words.size = wordsFor size
  size_le : size ≤ maxBits
  directory_eq : directory = Directory.build (maskedWord words size) size

namespace Bitmap

def ofParts (words : Words) (size : Nat) (h : words.size = wordsFor size)
    (hle : size ≤ maxBits) : Bitmap :=
  ⟨words, size, Directory.build (maskedWord words size) size, h, hle, rfl⟩

/-! ## Building -/

structure Builder where
  words : Array UInt64
  size : Nat
  size_words : words.size = wordsFor size
  size_le : size ≤ maxBits

namespace Builder

def empty : Builder := ⟨#[], 0, rfl, Nat.zero_le _⟩

/-- Makes room for one more bit. -/
def room (words : Array UInt64) (size : Nat) : Array UInt64 :=
  if size % Word.width = 0 then words.push 0 else words

theorem size_room {words : Array UInt64} {size : Nat}
    (h : words.size = wordsFor size) :
    (room words size).size = wordsFor (size + 1) := by
  unfold room
  split <;> simp_all [wordsFor, Word.width] <;> omega

def push (b : Builder) (bit : Bool) : Except Error Builder :=
  if h : maxBits ≤ b.size then
    .error (.construction (.tooManyBits maxBits))
  else if bit then
    .ok ⟨(room b.words b.size).modify (b.size / Word.width)
        (· ||| Word.single (b.size % Word.width)), b.size + 1,
      by rw [Array.size_modify]; exact size_room b.size_words, by omega⟩
  else
    .ok ⟨room b.words b.size, b.size + 1, size_room b.size_words, by omega⟩

def pushAll (b : Builder) (bits : List Bool) : Except Error Builder :=
  bits.foldlM push b

def finish (b : Builder) : Bitmap :=
  ofParts (.owned b.words) b.size b.size_words b.size_le

end Builder

def ofBits (bits : List Bool) : Except Error Bitmap :=
  return (← Builder.empty.pushAll bits).finish

theorem size_extract_words {words : Array UInt64} {size : Nat}
    (h : ¬words.size < wordsFor size) :
    (words.extract 0 (wordsFor size)).size = wordsFor size := by
  rw [Array.size_extract]
  omega

/-- The first `size` bits of `words`. -/
def ofWords (words : Array UInt64) (size : Nat) : Except Error Bitmap :=
  if hle : maxBits < size then
    .error (.construction (.tooManyBits maxBits))
  else if h : words.size < wordsFor size then
    .error (.construction (.tooFewWords words.size size))
  else
    .ok (ofParts (.owned (words.extract 0 (wordsFor size))) size
      (size_extract_words h) (Nat.le_of_not_lt hle))

/-! ## Queries -/

def word (b : Bitmap) (i : Nat) : UInt64 := maskedWord b.words b.size i

def isEmpty (b : Bitmap) : Bool := b.size = 0

def ones (b : Bitmap) : Nat := b.directory.ones

def zeros (b : Bitmap) : Nat := b.size - b.ones

def isMapped (b : Bitmap) : Bool := b.words.isMapped

/-- Bit `i`, for `i` below the size. -/
def bit (b : Bitmap) (i : Nat) : Bool :=
  Word.bit (b.words.word (i / Word.width)) (i % Word.width)

def get (b : Bitmap) (i : Nat) : Except Error Bool :=
  if i < b.size then .ok (b.bit i) else .error (.outOfRange i b.size)

def toList (b : Bitmap) : List Bool := (List.range b.size).map b.bit

/-- The ones before position `i`; past the end, all of them. -/
def rankBefore (b : Bitmap) (i : Nat) : Nat :=
  b.directory.rank b.word (min i b.size)

/-- The ones up to and including position `i`. -/
def rank1 (b : Bitmap) (i : Nat) : Nat := b.rankBefore (i + 1)

/-- The zeros up to and including position `i`. -/
def rank0 (b : Bitmap) (i : Nat) : Nat := min (i + 1) b.size - b.rank1 i

/-- The position of the one number `k`, counted from 1. -/
def select1 (b : Bitmap) (k : Nat) : Except Error Nat :=
  if k = 0 ∨ b.ones < k then .error (.outOfRange k (b.ones + 1))
  else .ok (b.directory.select b.word k)

instance : BEq Bitmap where
  beq a b := a.size == b.size && (List.range (wordsFor a.size)).all fun i =>
    a.word i == b.word i

def describe (b : Bitmap) : String :=
  Text.record "Bitmap"
    [("len", toString b.size), ("ones", toString b.ones),
     ("mapped", Text.truth b.isMapped)]

end Bitmap

end TripleStore
