import TripleStore.Bytes.Scan
import TripleStore.Config

/-!
# Word buffers

Packed structures keep their bits in 64-bit words. The words are either owned or
a view into a backing, where each takes eight bytes, the lowest first, at any
offset. Only owned words can change; two buffers with the same words are equal.
-/

namespace TripleStore

/-- The words that `bits` bits take. -/
def wordsFor (bits : Nat) : Nat := (bits + 63) / 64

inductive Words where
  | owned (words : Array UInt64)
  | view (backing : Backing) (offset size : Nat)

namespace Words

def empty : Words := owned #[]

def size : Words → Nat
  | owned words => words.size
  | view _ _ size => size

/-- The word at `i`, and 0 past the end. -/
def word (w : Words) (i : Nat) : UInt64 :=
  match w with
  | owned words => words.getD i 0
  | view backing offset size =>
    if i < size then backing.wordAt (offset + 8 * i) else 0

instance : BEq Words where
  beq a b := a.size == b.size && (List.range a.size).all fun i =>
    a.word i == b.word i

/-- The words, if they can be changed. -/
def owned? : Words → Except Error (Array UInt64)
  | owned words => .ok words
  | view .. => .error .readOnly

def push (w : Words) (word : UInt64) : Except Error Words :=
  return owned ((← w.owned?).push word)

def isView : Words → Bool
  | owned _ => false
  | view .. => true

/-- The words lie in the map of a file. -/
def isMapped : Words → Bool
  | owned _ => false
  | view backing _ _ => backing.isMapped

/-- The bytes that the words take on the heap. -/
def heapBytes : Words → Nat
  | owned words => 8 * words.size
  | view .. => 0

def describe (w : Words) : String :=
  Text.record "WordBuffer" [("len", toString w.size),
    ("mapped", Text.truth w.isView)]

/-- The `n` words of a backing from position `start`, copied or viewed. -/
def ofBacking (mode : LoadMode) (backing : Backing) (start n : Nat) : Words :=
  match mode with
  | .loaded =>
    owned (Array.ofFn fun i : Fin n => backing.wordAt (start + 8 * i.val))
  | .mapped => view backing start n

@[simp] theorem size_ofBacking (mode : LoadMode) (backing : Backing)
    (start n : Nat) :
    (ofBacking mode backing start n).size = n := by
  cases mode <;> simp [ofBacking, size]

/-- Both modes give the same words. -/
theorem word_ofBacking (mode : LoadMode) (backing : Backing) (start n i : Nat) :
    (ofBacking mode backing start n).word i =
      if i < n then backing.wordAt (start + 8 * i) else 0 := by
  cases mode with
  | mapped => rfl
  | loaded =>
    by_cases h : i < n <;> simp [ofBacking, word, Array.getD, h]

/-- Reads `n` words. -/
def read (mode : LoadMode) (n : Nat) : Scan { w : Words // w.size = n } := do
  let (backing, start) ← Scan.range (8 * n)
  return ⟨ofBacking mode backing start n, size_ofBacking mode backing start n⟩

end Words

/-- The eight bytes of a word. -/
def wordBytes (word : UInt64) : Bytes := LittleEndian.encode 8 word.toNat

end TripleStore
