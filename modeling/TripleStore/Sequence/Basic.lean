import TripleStore.Word
import TripleStore.Words

/-!
# Packed sequences

A sequence holds numbers of one width in bits: number `i` takes the bits from `i
* width` on, and may lie across two words. At width 0 nothing is stored and
every number is 0.
-/

namespace TripleStore

structure Sequence where
  words : Words
  width : Nat
  size : Nat
  width_le : width ≤ Word.width
  size_words : words.size = wordsFor (size * width)

namespace Sequence

/-- The least width that has room for `n`. -/
def bitsNeeded (n : UInt64) : Nat := if n = 0 then 0 else n.toNat.log2 + 1

theorem bitsNeeded_le (n : UInt64) : bitsNeeded n ≤ Word.width := by
  unfold bitsNeeded Word.width
  split
  · omega
  · next h =>
    have hn : n.toNat ≠ 0 := fun h0 => h (UInt64.toNat_inj.1 h0)
    have := (Nat.log2_lt hn).2 n.toNat_lt
    omega

/-- The largest of `values`, and 0 if there are none. -/
def maximum (values : List UInt64) : UInt64 := values.foldl max 0

/-! ## Bits in words -/

/-- Puts the lowest `width` bits of `value` at position `start`. -/
def put (words : Array UInt64) (width start : Nat) (value : UInt64) :
    Array UInt64 :=
  let i := start / Word.width
  let shift := start % Word.width
  let mask := Word.low (-1) width
  let words := words.modify i fun w =>
    (w &&& ~~~(mask <<< shift.toUInt64)) ||| (value <<< shift.toUInt64)
  if shift + width ≤ Word.width then words
  else
    let high := Word.low (-1) (shift + width - Word.width)
    words.modify (i + 1) fun w =>
      (w &&& ~~~high) ||| (value >>> (Word.width - shift).toUInt64)

/-- Takes the `width` bits at position `start`; `word` gives the words. -/
def take (word : Nat → UInt64) (width start : Nat) : UInt64 :=
  let i := start / Word.width
  let shift := start % Word.width
  let first := word i >>> shift.toUInt64
  let both :=
    if shift + width ≤ Word.width then first
    else first ||| (word (i + 1) <<< (Word.width - shift).toUInt64)
  Word.low both width

@[simp] theorem size_put (words : Array UInt64) (width start : Nat)
    (value : UInt64) :
    (put words width start value).size = words.size := by
  simp only [put]
  split <;> simp

/-- Adds words of zeros until there are `n`. -/
def grow (words : Array UInt64) (n : Nat) : Array UInt64 :=
  words ++ Array.replicate (n - words.size) 0

/-! ## Building -/

def create (width : Nat) : Except Error Sequence :=
  if h : width ≤ Word.width then
    .ok ⟨.empty, width, 0, h, by simp [Words.empty, Words.size, wordsFor]⟩
  else
    .error (.invalidArgument (.sequenceWidth width))

/-- Puts `values` one after another, from number `i` on. -/
def putAll (width : Nat) (words : Array UInt64) (i : Nat) :
    List UInt64 → Array UInt64
  | [] => words
  | v :: vs => putAll width (put words width (i * width) v) (i + 1) vs

@[simp] theorem size_putAll (width : Nat) (words : Array UInt64) (i : Nat)
    (values : List UInt64) :
    (putAll width words i values).size = words.size := by
  induction values generalizing words i with
  | nil => rfl
  | cons v vs ih => simp [putAll, ih]

/-- The sequence of `values` in the least width that has room for all of them. -/
def ofList (values : List UInt64) : Sequence :=
  let width := bitsNeeded (maximum values)
  { words := .owned
      (putAll width (Array.replicate (wordsFor (values.length * width)) 0) 0 values)
    width := width
    size := values.length
    width_le := bitsNeeded_le _
    size_words := by simp [Words.size] }

/-! ## Access -/

def isEmpty (s : Sequence) : Bool := s.size = 0

def isMapped (s : Sequence) : Bool := s.words.isMapped

def heapBytes (s : Sequence) : Nat := s.words.heapBytes

/-- Number `i`, for `i` below the size. -/
def value (s : Sequence) (i : Nat) : UInt64 :=
  if s.width = 0 then 0 else take s.words.word s.width (i * s.width)

def get (s : Sequence) (i : Nat) : Except Error UInt64 :=
  if i < s.size then .ok (s.value i) else .error (.outOfRange i s.size)

def toList (s : Sequence) : List UInt64 := (List.range s.size).map s.value

/-- Refuses a value that has no room in the width. -/
def fit (s : Sequence) (value : UInt64) : Except Error Unit :=
  if value.toNat < capacity s.width then
    .ok () else .error (.valueTooLarge value s.width)

/-- One number more can be counted in a word, and so can the bits up to its end. -/
def HasRoom (s : Sequence) : Prop :=
  s.size + 1 < capacity 64 ∧ (s.size + 1) * s.width < capacity 64

instance (s : Sequence) : Decidable s.HasRoom :=
  inferInstanceAs (Decidable (_ ∧ _))

theorem size_owned {s : Sequence} {words : Array UInt64}
    (h : s.words = .owned words) :
    words.size = wordsFor (s.size * s.width) := by
  rw [← s.size_words, h]
  rfl

/-- With one number more there are just as many words as it takes. -/
theorem size_grow {s : Sequence} {words : Array UInt64}
    (h : s.words = .owned words) :
    (grow words (wordsFor ((s.size + 1) * s.width))).size =
      wordsFor ((s.size + 1) * s.width) := by
  have hmore : words.size ≤ wordsFor ((s.size + 1) * s.width) := by
    rw [size_owned h, Nat.succ_mul, wordsFor, wordsFor]
    omega
  rw [grow, Array.size_append, Array.size_replicate, Nat.add_sub_cancel' hmore]

/-- Adds `value` at the end. -/
def append (s : Sequence) (value : UInt64) : Except Error Sequence :=
  match h : s.words with
  | .view .. => .error .readOnly
  | .owned words => do
    s.fit value
    if s.HasRoom then
      return { s with
        words := .owned
          (put (grow words (wordsFor ((s.size + 1) * s.width))) s.width
            (s.size * s.width) value)
        size := s.size + 1
        size_words := by rw [Words.size, size_put, size_grow h] }
    else
      throw .overflow

/-- Replaces number `i`. -/
def set (s : Sequence) (i : Nat) (value : UInt64) : Except Error Sequence :=
  if i < s.size then do
    s.fit value
    match h : s.words with
    | .owned words =>
      return { s with
        words := .owned (put words s.width (i * s.width) value)
        size_words := by simpa [h, Words.size] using s.size_words }
    | .view .. => throw .readOnly
  else
    .error (.outOfRange i s.size)

instance : BEq Sequence where
  beq a b := a.words == b.words && a.width == b.width && a.size == b.size

def describe (s : Sequence) : String :=
  Text.record "Sequence"
    [("len", toString s.size), ("width", toString s.width),
     ("mapped", Text.truth s.isMapped)]

end Sequence

end TripleStore
