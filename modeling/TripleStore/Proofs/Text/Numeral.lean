import TripleStore.Text.Numeral

/-!
# Numerals come back

The numeral that is written for a number is read as that number
(`unsigned?_decimal`), and it has not more than one digit for each bit.
-/

namespace TripleStore.Text.Numeral

theorem digitValue?_digit {d : Nat} (h : d < 10) :
    digitValue? (digit d) = some d := by
  have hall : ∀ d < 10, digitValue? (digit d) = some d := by decide
  exact hall d h

theorem extend?_concat (m : Nat) (cs : List Char) (c : Char) :
    extend? m (cs ++ [c]) = (extend? m cs).bind fun n => extend? n [c] := by
  induction cs generalizing m with
  | nil => rfl
  | cons b cs ih =>
      simp only [List.cons_append, extend?]
      cases digitValue? b with
      | none => rfl
      | some d => exact ih _

theorem extend?_digits (n : Nat) : extend? 0 (digits n) = some n := by
  induction n using Nat.strongRecOn with
  | ind n ih =>
      rw [digits]
      split
      · next h =>
          simp only [extend?, digitValue?_digit h]
          simp
      · next h =>
          rw [extend?_concat, ih (n / 10) (by omega), Option.bind_some]
          simp only [extend?,
            digitValue?_digit (Nat.mod_lt n (by decide : 0 < 10))]
          simp [Nat.div_add_mod]

theorem digits_ne_nil (n : Nat) : digits n ≠ [] := by
  rw [digits]
  split <;> simp

/-- No numeral begins with a sign. -/
theorem digits_ne_plus (n : Nat) (cs : List Char) : digits n ≠ '+' :: cs := by
  intro h
  have hvalue := extend?_digits n
  have hplus : digitValue? '+' = none := by decide
  rw [h, extend?, hplus] at hvalue
  cases hvalue

theorem magnitude?_digits (n : Nat) : magnitude? (digits n) = some n := by
  have hvalue := extend?_digits n
  unfold magnitude?
  split
  · next h => exact absurd h (digits_ne_plus n _)
  · cases hdigits : digits n with
    | nil => exact absurd hdigits (digits_ne_nil n)
    | cons c cs =>
        rw [hdigits] at hvalue
        exact hvalue

theorem unsigned?_decimal {bits n : Nat} (h : n < capacity bits) :
    unsigned? bits (decimal n) = some n := by
  rw [unsigned?, decimal, String.toList_ofList, magnitude?_digits]
  exact if_pos h

theorem length_digits_le {k n : Nat} (h : n < capacity k) :
    (digits n).length ≤ k + 1 := by
  induction k generalizing n with
  | zero =>
      rw [capacity_zero] at h
      rw [digits, if_pos (by omega)]
      exact Nat.le_refl 1
  | succ k ih =>
      rw [digits]
      split
      · simp
      · have hhalf : n / 10 < capacity k := by
          have hstep : capacity (k + 1) = capacity k * 2 := capacity_add k 1
          omega
        rw [List.length_append, List.length_singleton]
        exact Nat.succ_le_succ (ih hhalf)

end TripleStore.Text.Numeral
