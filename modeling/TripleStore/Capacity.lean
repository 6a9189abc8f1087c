/-!
# Capacities

So many bits have room for the numbers below their capacity. One bit more
doubles it.
-/

namespace TripleStore

/-- How many numbers `bits` bits can tell apart. -/
def capacity (bits : Nat) : Nat := 1 <<< bits

theorem capacity_eq_pow (bits : Nat) : capacity bits = Nat.pow 2 bits :=
  Nat.one_shiftLeft bits

@[simp] theorem capacity_zero : capacity 0 = 1 := rfl

theorem capacity_add (m n : Nat) :
    capacity (m + n) = capacity m * capacity n := by
  rw [capacity_eq_pow, capacity_eq_pow, capacity_eq_pow]
  exact Nat.pow_add 2 m n

theorem capacity_pos (bits : Nat) : 0 < capacity bits := by
  rw [capacity_eq_pow]
  exact Nat.two_pow_pos bits

end TripleStore
