/-!
# Runs

A run is a stretch of neighbours in a list that agree on a key.
-/

namespace TripleStore.Runs

variable {α κ : Type} [DecidableEq κ]

/-- Tells for each element whether it is the last of its run. -/
def ends (key : α → κ) : List α → List Bool
  | [] => []
  | [_] => [true]
  | a :: b :: l => decide (key a ≠ key b) :: ends key (b :: l)

/-- The last element of each run. -/
def lasts (key : α → κ) : List α → List α
  | [] => []
  | [a] => [a]
  | a :: b :: l =>
    if key a = key b then lasts key (b :: l) else a :: lasts key (b :: l)

theorem length_ends (key : α → κ) (l : List α) :
    (ends key l).length = l.length := by
  fun_induction ends key l <;> simp_all

theorem count_ends (key : α → κ) (l : List α) :
    (ends key l).count true = (lasts key l).length := by
  fun_induction lasts key l <;> simp_all [ends]

end TripleStore.Runs
