/-!
# Spans

A span is a half-open range of positions.
-/

namespace TripleStore

structure Span where
  start : Nat
  stop : Nat
deriving DecidableEq

namespace Span

def empty : Span := ⟨0, 0⟩

def size (s : Span) : Nat := s.stop - s.start

def isEmpty (s : Span) : Bool := s.stop ≤ s.start

/-- The range without its first position. -/
def tail (s : Span) : Span := ⟨s.start + 1, s.stop⟩

def toList (s : Span) : List Nat := List.range' s.start s.size

theorem size_tail_lt {s : Span} (h : ¬ s.isEmpty = true) :
    s.tail.size < s.size := by
  simp only [isEmpty, decide_eq_true_eq] at h
  simp only [tail, size]
  omega

def describe (s : Span) : String := s!"{s.start}..{s.stop}"

end Span

end TripleStore
