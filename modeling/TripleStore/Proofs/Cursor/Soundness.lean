import Mathlib.Data.List.TakeWhile
import TripleStore.Proofs.Cursor.Completeness

/-!
# Sound answers

Whether ids are found where they stand or not, a walk leads only to occurrences
with the major id that is asked for, and a cursor stops only at triples with the
other two. So all that a search gives are triples that the pattern covers, with
their positions (`mem_drain_plan`).
-/

namespace TripleStore.Cursor

variable {t : Tree} {wanted : Coords} {index : Option PredicateIndex}

theorem reaches_of_key {k j : Nat} (hk : wanted.major.toNat = k)
    (hkey : t.middles.key j = k) :
    (start t wanted .scan none .empty).reaches j = true := by
  rw [reaches, Bool.or_eq_true, beq_iff_eq, beq_iff_eq]
  exact .inr (hkey.trans hk.symm)

theorem reaches_of_major_eq_zero (hmajor : wanted.major = 0) (j : Nat) :
    (start t wanted .scan none .empty).reaches j = true := by
  rw [reaches, Bool.or_eq_true, beq_iff_eq]
  exact .inl hmajor

/-- A walk leads to occurrences with the major id that is asked for. -/
theorem reaches_of_mem_walk {j : Nat} (hj : j ∈ walk t wanted index) :
    (start t wanted .scan none .empty).reaches j = true := by
  unfold walk at hj
  split at hj
  · cases hj
  next hreach =>
  split at hj
  · next hmajor =>
      obtain ⟨k, hk⟩ := Nat.exists_eq_add_one.mpr (toNat_pos hmajor)
      have hle := (not_outOfReach_iff.mp hreach).1
      rw [hk] at hj hle
      dsimp only at hj
      split at hj
      · exact reaches_of_key hk ((Adjacency.mem_keySpan_iff hle).mp hj).2
      · exact reaches_of_key hk
          (Adjacency.find?_eq_some hle (Option.mem_toList.mp hj)).2.1
  · next hmajor => exact reaches_of_major_eq_zero (not_not.mp hmajor) j

/-- Where a cursor stops, the pattern covers. -/
theorem covers_of_mem_places (h : t.Consistent) {i j : Nat}
    (hj : j < t.middles.size)
    (hreaches : (start t wanted .scan none .empty).reaches j = true)
    (hi : i ∈ places t wanted j) :
    wanted.covers (t.coords i) = true := by
  have hcovers := covers_of_mem_run (c := start t wanted .scan none .empty) h hj
    (places_subset h hj hi)
  unfold places at hi
  dsimp only at hi
  split at hi
  · next hadmits =>
      rw [hreaches, hadmits, List.mem_takeWhile_imp hi] at hcovers
      exact hcovers
  · cases hi

/-- What a plan gives is a triple of the tree that the pattern covers, with its
position. -/
theorem mem_drain_plan (h : t.Consistent)
    (hwalk : ∀ j ∈ walk t wanted index, j < t.middles.size)
    {e : Triple × Option Nat} (he : e ∈ (plan t wanted index).drain) :
    ∃ i < t.size, e = t.entry i ∧ wanted.covers (t.coords i) = true := by
  rw [drain_plan h hwalk, List.mem_map] at he
  obtain ⟨i, hi, rfl⟩ := he
  obtain ⟨j, hj, hi⟩ := List.mem_flatMap.mp hi
  exact ⟨i, Tree.lt_of_mem_run h (hwalk j hj) (places_subset h (hwalk j hj) hi),
    rfl, covers_of_mem_places h (hwalk j hj) (reaches_of_mem_walk hj) hi⟩

end TripleStore.Cursor
