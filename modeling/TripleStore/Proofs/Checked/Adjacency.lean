import TripleStore.Proofs.Adjacency.Building
import TripleStore.Proofs.Checked.Bitmap

/-!
# Adjacency lists with every access checked

Values, spans and keys once more, in steps that give nothing where a position, a
key or a word is asked for that there is not. For the positions and keys that
there are, no check fails.
-/

namespace TripleStore

/-- The words of both parts lie where they are said to. -/
structure Adjacency.Fits (a : Adjacency) : Prop where
  bitmap : a.bitmap.words.Fits
  sequence : a.sequence.words.Fits

namespace Checked

/-! ## Sequences -/

/-- The `width` bits at position `start`. -/
def window (word : Nat → Option UInt64) (width start : Nat) :
    Option UInt64 := do
  let i := start / Word.width
  let shift := start % Word.width
  let w ← word i
  let first := w >>> shift.toUInt64
  if shift + width ≤ Word.width then
    return Word.low first width
  else
    let next ← word (i + 1)
    return Word.low (first ||| (next <<< (Word.width - shift).toUInt64)) width

/-- Number `i` of a sequence. -/
def number (s : Sequence) (i : Nat) : Option UInt64 := do
  demand (i < s.size)
  if s.width = 0 then return 0 else window (word s.words) s.width (i * s.width)

/-- The bits of a number lie in one word, or in two if they reach beyond the
first. -/
theorem window_eq {word? : Nat → Option UInt64} {word : Nat → UInt64}
    {width start n : Nat} (hword : ∀ i < wordsFor n, word? i = some (word i))
    (hwidth : width ≠ 0) (hend : start + width ≤ n) :
    window word? width start = some (Sequence.take word width start) := by
  have hfirst : start / Word.width < wordsFor n := div_lt_wordsFor (by omega)
  rw [window, hword _ hfirst, Sequence.take]
  show (if start % Word.width + width ≤ Word.width then _ else _) = _
  split
  · rfl
  · next hbeyond =>
      have hsecond : start / Word.width + 1 < wordsFor n := by
        rw [Word.width] at *
        rw [wordsFor]
        omega
      rw [hword _ hsecond]
      rfl

theorem number_eq {s : Sequence} (h : s.words.Fits) {i : Nat}
    (hi : i < s.size) :
    number s i = some (s.value i) := by
  rw [number, demand_eq hi, Sequence.value]
  show (if s.width = 0 then _ else _) = _
  split
  · rfl
  · next hwidth =>
      have hend : i * s.width + s.width ≤ s.size * s.width := by
        rw [← Nat.succ_mul]
        exact Nat.mul_le_mul_right _ hi
      refine window_eq (fun j hj => word_eq h ?_) hwidth hend
      rwa [s.size_words]

/-! ## Adjacency lists -/

def value (a : Adjacency) (i : Nat) : Option UInt64 := number a.sequence i

def stop (a : Adjacency) (k : Nat) : Option Nat :=
  (select1 a.bitmap k).map (· + 1)

def start (a : Adjacency) (k : Nat) : Option Nat :=
  if k = 1 then some 0 else stop a (k - 1)

def keySpan (a : Adjacency) (k : Nat) : Option Span := do
  demand (0 < k)
  demand (k ≤ a.keys)
  return ⟨← start a k, ← stop a k⟩

def key (a : Adjacency) (i : Nat) : Option Nat := do
  demand (i < a.size)
  return (← rankBefore a.bitmap i) + 1

def lowerBound (a : Adjacency) (lo hi : Nat) (v : UInt64) : Option Nat :=
  halve (fun i => (value a i).map (· < v)) lo hi

def find (a : Adjacency) (s : Span) (v : UInt64) : Option (Option Nat) := do
  let i ← lowerBound a s.start s.stop v
  if i < s.stop then
    return if (← value a i) = v then some i else none
  else
    return none

variable {a : Adjacency} {i k : Nat}

theorem value_eq (h : a.Fits) (hi : i < a.size) :
    value a i = some (a.value i) :=
  number_eq h.sequence hi

theorem stop_eq (h : a.Fits) (hpos : 0 < k) (hk : k ≤ a.keys) :
    stop a k = some (a.stop k) := by
  obtain ⟨i, hchecked, hselect⟩ := select1_eq h.bitmap hpos hk
  rw [stop, hchecked, Adjacency.stop, hselect]
  rfl

/-- A key that there is has its end, and so has the one before it. -/
theorem keySpan_eq (h : a.Fits) (hpos : 0 < k) (hk : k ≤ a.keys) :
    keySpan a k = some (a.keySpan k) := by
  have hstart : start a k = some (if k = 1 then 0 else a.stop (k - 1)) := by
    unfold start
    split
    · rfl
    · exact stop_eq h (by omega) (by omega)
  rw [keySpan, demand_eq hpos, demand_eq hk, hstart, stop_eq h hpos hk]
  rfl

theorem key_eq (h : a.Fits) (hi : i < a.size) : key a i = some (a.key i) := by
  rw [key, demand_eq hi, rankBefore_eq h.bitmap]
  rfl

theorem lowerBound_eq (h : a.Fits) (lo : Nat) {hi : Nat} (hhi : hi ≤ a.size)
    (v : UInt64) :
    lowerBound a lo hi v = some (a.lowerBound lo hi v) := by
  rw [Adjacency.lowerBound_eq_halve]
  apply halve_eq
  intro i _ hi
  rw [value_eq h (Nat.lt_of_lt_of_le hi hhi)]
  rfl

theorem find_eq (h : a.Fits) {s : Span} (hs : s.stop ≤ a.size) (v : UInt64) :
    find a s v = some (a.find? s v) := by
  rw [find, lowerBound_eq h s.start hs, Adjacency.find?]
  show (if a.lowerBound s.start s.stop v < s.stop then _ else _) = _
  split
  · next hi =>
      rw [value_eq h (Nat.lt_of_lt_of_le hi hs)]
      show some (if _ then _ else _) = _
      simp only [hi, true_and]
  · next hi =>
      rw [if_neg fun hfound => hi hfound.1]
      rfl

end Checked

end TripleStore
