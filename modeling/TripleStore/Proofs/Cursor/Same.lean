import TripleStore.Proofs.Cursor.Completeness
import TripleStore.Proofs.Tree.Section

/-!
# The same trees are searched alike

A search looks at keys, spans and the values of positions that there are. So in
two trees with the same contents a plan has the same walk and stops at the same
places (`drain_plan_same`), whether ids are found where they stand or not.
-/

namespace TripleStore.Cursor

theorem takeWhile_congr {α : Type} {p q : α → Bool} {l : List α}
    (h : ∀ a ∈ l, p a = q a) :
    l.takeWhile p = l.takeWhile q := by
  induction l with
  | nil => rfl
  | cons a l ih =>
      obtain ⟨ha, hl⟩ := List.forall_mem_cons.mp h
      rw [List.takeWhile_cons, List.takeWhile_cons, ha, ih hl]

variable {t u : Tree} {wanted : Coords}

theorem outOfReach_same (h : t.Same u) :
    t.outOfReach wanted = u.outOfReach wanted := by
  have hmajors : t.majors = u.majors := h.middles.keys
  rw [Tree.outOfReach, Tree.outOfReach, hmajors, h.maxMiddle, h.maxMinor]

theorem run_same (h : t.Same u) (j : Nat) : t.run j = u.run j :=
  h.minors.keySpan (j + 1)

theorem runOf_same (h : t.Same u) (ht : t.Consistent) {j : Nat}
    (hj : j < t.middles.size) :
    (start t wanted .scan none .empty).runOf j =
      (start u wanted .scan none .empty).runOf j := by
  have hstop : (t.run j).stop ≤ t.minors.size :=
    Adjacency.keySpan_stop_le (by rwa [ht.groups])
  have hrun := run_same h j
  have hlower := h.minors.lowerBound (t.run j).start hstop wanted.minor
  unfold runOf
  dsimp only [start]
  rw [← Tree.run, ← Tree.run, ← hrun, hlower]
  rfl

/-- An occurrence has the same places. -/
theorem places_same (h : t.Same u) (ht : t.Consistent) {j : Nat}
    (hj : j < t.middles.size) :
    places t wanted j = places u wanted j := by
  have hadmits : (start t wanted .scan none .empty).admits j =
      (start u wanted .scan none .empty).admits j := by
    rw [admits, admits]
    dsimp only [start]
    rw [h.middles.value hj]
  unfold places
  dsimp only
  rw [hadmits, ← runOf_same h ht hj]
  split
  · apply takeWhile_congr
    intro i hi
    have hi := Tree.lt_of_mem_run ht hj
      (runOf_subset (c := start t wanted .scan none .empty) ht hj hi)
    rw [wants, wants]
    dsimp only [start]
    rw [h.minors.value hi]
  · rfl

theorem walk_same (h : t.Same u) : walk t wanted none = walk u wanted none := by
  unfold walk
  rw [← outOfReach_same h, ← h.middles.keySpan, ← h.middles.size]
  split
  · rfl
  next hreach =>
  split
  · next hmajor =>
      have hle := (not_outOfReach_iff.mp hreach).1
      have hpos := toNat_pos hmajor
      have hstop :
          (t.middles.keySpan wanted.major.toNat).stop ≤ t.middles.size := by
        obtain ⟨k, hk⟩ := Nat.exists_eq_add_one.mpr hpos
        rw [hk] at hle ⊢
        exact Adjacency.keySpan_stop_le hle
      dsimp only
      rw [h.middles.find? hstop]
  · rfl

/-- Without an index the same trees give the same. -/
theorem drain_plan_same (h : t.Same u) (ht : t.Consistent) :
    (plan t wanted none).drain = (plan u wanted none).drain := by
  have hwalk : ∀ {v : Tree}, ∀ j ∈ walk v wanted none, j < v.middles.size :=
    walk_lt fun x hx => by cases hx
  rw [drain_plan ht hwalk, drain_plan (h.consistent ht) hwalk, ← walk_same h]
  rw [List.map_flatMap, List.map_flatMap]
  apply List.flatMap_congr
  intro j hj
  rw [← places_same h ht (hwalk j hj)]
  apply List.map_congr_left
  intro i hi
  have hi := Tree.lt_of_mem_run ht (hwalk j hj)
    (places_subset ht (hwalk j hj) hi)
  rw [Tree.entry, Tree.entry, h.coords ht hi, h.order]

end TripleStore.Cursor
