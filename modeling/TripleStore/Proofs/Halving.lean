import Mathlib.Tactic.Common
import TripleStore.Adjacency

/-!
# Halving

Blocks and values are found by halving a range: at the middle position a test
says on which side to go on. If the test holds on a first part of the range and
nowhere behind it, halving ends where it ceases to hold. What can be said
without that is what the last tests on either side said, and that two searches
over one range part at a position between their ends.
-/

namespace TripleStore

/-- Halves the range from `lo` to `hi` until no position is left: behind the
middle where the test holds, and else before it. -/
def halve (below : Nat → Bool) (lo hi : Nat) : Nat :=
  if lo < hi then
    let mid := lo + (hi - lo) / 2
    if below mid then halve below (mid + 1) hi else halve below lo mid
  else lo
termination_by hi - lo

theorem halve_right {below : Nat → Bool} {lo hi : Nat} (hlt : lo < hi)
    (h : below (lo + (hi - lo) / 2) = true) :
    halve below lo hi = halve below (lo + (hi - lo) / 2 + 1) hi := by
  rw [halve, if_pos hlt]
  simp only [h, if_true]

theorem halve_left {below : Nat → Bool} {lo hi : Nat} (hlt : lo < hi)
    (h : ¬ below (lo + (hi - lo) / 2) = true) :
    halve below lo hi = halve below lo (lo + (hi - lo) / 2) := by
  rw [halve, if_pos hlt]
  simp only [h, if_false, Bool.false_eq_true]

theorem Directory.firstBlock_eq_halve (d : Directory) (target lo hi : Nat) :
    d.firstBlock target lo hi =
      halve (fun i => (d.block i).before < target) lo hi := by
  fun_induction Directory.firstBlock d target lo hi with
  | case1 lo hi hlt mid hbelow ih =>
    rw [ih, halve_right hlt (decide_eq_true hbelow)]
  | case2 lo hi hlt mid hbelow ih =>
    rw [ih, halve_left hlt (by simpa using hbelow)]
  | case3 lo hi hlt => rw [halve, if_neg hlt]

theorem Adjacency.lowerBound_eq_halve (a : Adjacency) (lo hi : Nat)
    (v : UInt64) :
    a.lowerBound lo hi v = halve (fun i => a.value i < v) lo hi := by
  fun_induction Adjacency.lowerBound a lo hi v with
  | case1 lo hi hlt mid hbelow ih =>
    rw [ih, halve_right hlt (decide_eq_true hbelow)]
  | case2 lo hi hlt mid hbelow ih =>
    rw [ih, halve_left hlt (by simpa using hbelow)]
  | case3 lo hi hlt => rw [halve, if_neg hlt]

/-- Only the tests in the range matter. -/
theorem halve_congr {below below' : Nat → Bool} {lo hi : Nat}
    (h : ∀ i, lo ≤ i → i < hi → below i = below' i) :
    halve below lo hi = halve below' lo hi := by
  fun_induction halve below lo hi with
  | case1 lo hi hlt mid hbelow ih =>
      rw [ih fun i hlo hhi => h i (by omega) hhi]
      exact (halve_right hlt
        ((h mid (by omega) (by omega)).symm.trans hbelow)).symm
  | case2 lo hi hlt mid hbelow ih =>
      rw [ih fun i hlo hhi => h i hlo (by omega)]
      exact (halve_left hlt ((h mid (by omega) (by omega)) ▸ hbelow)).symm
  | case3 lo hi hlt => rw [halve, if_neg hlt]

theorem halve_mem (below : Nat → Bool) {lo hi : Nat} (h : lo ≤ hi) :
    lo ≤ halve below lo hi ∧ halve below lo hi ≤ hi := by
  fun_induction halve below lo hi with
  | case1 lo hi hlt mid hbelow ih =>
      have := ih (by omega)
      omega
  | case2 lo hi hlt mid hbelow ih =>
      have := ih (by omega)
      omega
  | case3 lo hi hlt => omega

/-- Halving ends where the test ceases to hold. -/
theorem halve_eq {below : Nat → Bool} {lo hi b : Nat} (hlo : lo ≤ b)
    (hhi : b ≤ hi) (hbelow : ∀ i, lo ≤ i → i < b → below i = true)
    (habove : ∀ i, b ≤ i → i < hi → below i = false) :
    halve below lo hi = b := by
  fun_induction halve below lo hi with
  | case1 lo hi hlt mid hmid ih =>
      have hb : mid < b := by
        by_contra hge
        rw [habove mid (by omega) (by omega)] at hmid
        exact Bool.noConfusion hmid
      exact ih hb hhi (fun i hi => hbelow i (by omega)) habove
  | case2 lo hi hlt mid hmid ih =>
      have hb : b ≤ mid := by
        by_contra hge
        exact hmid (hbelow mid (by omega) (by omega))
      exact ih hlo hb hbelow (fun i hi₁ hi₂ => habove i hi₁ (by omega))
  | case3 lo hi hlt => omega

/-- If the test holds before every position where it holds, halving parts the
range. -/
theorem halve_spec (below : Nat → Bool) {lo hi : Nat} (hle : lo ≤ hi)
    (h : ∀ i j, lo ≤ i → i ≤ j → j < hi → below j = true → below i = true) :
    (∀ i, lo ≤ i → i < halve below lo hi → below i = true) ∧
      ∀ i, halve below lo hi ≤ i → i < hi → below i = false := by
  fun_induction halve below lo hi with
  | case1 lo hi hlt mid hmid ih =>
      obtain ⟨hbelow, habove⟩ := ih (by omega) fun i j hi hij hj =>
        h i j (by omega) hij hj
      refine ⟨fun i hi hend => ?_, habove⟩
      by_cases hright : mid + 1 ≤ i
      · exact hbelow i hright hend
      · exact h i mid hi (by omega) (by omega) hmid
  | case2 lo hi hlt mid hmid ih =>
      obtain ⟨hbelow, habove⟩ := ih (by omega) fun i j hi hij hj =>
        h i j hi hij (by omega)
      refine ⟨hbelow, fun i hend hi => ?_⟩
      by_cases hleft : i < mid
      · exact habove i hend hleft
      · have hmem := halve_mem below (show lo ≤ mid by omega)
        exact Bool.eq_false_iff.mpr fun hbelow =>
          hmid (h mid i (by omega) (by omega) hi hbelow)
  | case3 lo hi hlt => exact ⟨fun i _ _ => by omega, fun i _ _ => by omega⟩

/-- Two searches that end at different places part at a position from the first
end on and before the second, where the test of the first fails and that of the
second holds. -/
theorem halve_parts {f g : Nat → Bool} {lo hi : Nat} (hle : lo ≤ hi)
    (h : halve f lo hi < halve g lo hi) :
    ∃ m, halve f lo hi ≤ m ∧ m < halve g lo hi ∧ f m = false ∧ g m = true := by
  fun_induction halve f lo hi with
  | case1 lo hi hlt mid hf ih =>
      have hmem := halve_mem f (show mid + 1 ≤ hi by omega)
      by_cases hg : g mid = true
      · rw [halve_right hlt hg] at h ⊢
        exact ih (by omega) h
      · have hleft := halve_mem g (show lo ≤ lo + (hi - lo) / 2 by omega)
        rw [halve_left hlt hg] at h
        omega
  | case2 lo hi hlt mid hf ih =>
      have hmem := halve_mem f (show lo ≤ mid by omega)
      by_cases hg : g mid = true
      · have hright := halve_mem g (show mid + 1 ≤ hi by omega)
        rw [halve_right hlt hg]
        exact ⟨mid, hmem.2, hright.1, Bool.eq_false_iff.mpr hf, hg⟩
      · rw [halve_left hlt hg] at h ⊢
        exact ih (by omega) h
  | case3 lo hi hlt =>
      rw [halve, if_neg hlt] at h
      omega

end TripleStore
