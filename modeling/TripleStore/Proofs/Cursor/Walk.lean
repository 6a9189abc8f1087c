import TripleStore.Proofs.Cursor.Drain
import TripleStore.Proofs.Tree.Findable

/-!
# Walks

A plan settles which occurrences a cursor walks (`walk`), and at each of them it
picks places (`places`). What it gives are the entries of the tree at these
places (`drain_plan`). What it ought to give are the entries that the pattern
covers, occurrence by occurrence (`entries_filter`).
-/

namespace TripleStore

/-- A coordinate pattern covers `c`. -/
def Coords.covers (wanted c : Coords) : Bool :=
  (wanted.major == 0 || wanted.major == c.major) &&
  (wanted.middle == 0 || wanted.middle == c.middle) &&
  (wanted.minor == 0 || wanted.minor == c.minor)

theorem Order.covers_ofCoords (order : Order) (pattern : Triple) (c : Coords) :
    pattern.covers (order.ofCoords c) = (order.toCoords pattern).covers c := by
  cases order <;>
    simp only [Order.ofCoords, Order.toCoords, Triple.covers, Coords.covers,
      Bool.and_assoc, Bool.and_comm, Bool.and_left_comm]

namespace Tree

variable {t : Tree}

/-- The triple at position `i`, with its position. -/
def entry (t : Tree) (i : Nat) : Triple × Option Nat :=
  (t.order.ofCoords (t.coords i), some i)

def entries (t : Tree) : List (Triple × Option Nat) :=
  (List.range t.size).map t.entry

/-- The triples of occurrence `j`. -/
def run (t : Tree) (j : Nat) : Span := t.minors.keySpan (j + 1)

/-- The triples of occurrence `j` that a pattern covers. -/
def covered (t : Tree) (wanted : Coords) (j : Nat) : List Nat :=
  (t.run j).toList.filter fun i => wanted.covers (t.coords i)

theorem coords_of_mem_run (h : t.Consistent) {i j : Nat}
    (hj : j < t.middles.size) (hi : i ∈ (t.run j).toList) :
    t.coords i = ⟨(t.middles.key j).toUInt64, t.middles.value j,
      t.minors.value i⟩ := by
  rw [← h.groups] at hj
  rw [coords, ((Adjacency.mem_keySpan_iff hj).mp hi).2, Nat.add_sub_cancel]

theorem lt_of_mem_run (h : t.Consistent) {i j : Nat} (hj : j < t.middles.size)
    (hi : i ∈ (t.run j).toList) : i < t.size := by
  rw [← h.groups] at hj
  exact ((Adjacency.mem_keySpan_iff hj).mp hi).1

/-- Every occurrence has a triple. -/
theorem run_ne_nil (h : t.Consistent) {j : Nat} (hj : j < t.middles.size) :
    (t.run j).toList ≠ [] := by
  rw [← h.groups] at hj
  have hmem : t.minors.bound j ∈ (t.run j).toList := by
    rw [Tree.run, Adjacency.keySpan_succ, Span.mem_toList]
    exact ⟨Nat.le_refl _, Adjacency.bound_lt hj⟩
  exact List.ne_nil_of_mem hmem

theorem flatMap_run (h : t.Consistent) :
    (List.range t.middles.size).flatMap (fun j => (t.run j).toList) =
      List.range t.size := by
  rw [← h.groups]
  exact t.minors.flatMap_keySpan

/-- What a pattern covers, occurrence by occurrence. -/
theorem entries_filter (h : t.Consistent) (pattern : Triple) :
    t.entries.filter (fun e => pattern.covers e.1) =
      ((List.range t.middles.size).flatMap
        (t.covered (t.order.toCoords pattern))).map t.entry := by
  rw [entries, ← flatMap_run h, List.filter_map, List.filter_flatMap]
  simp only [Function.comp_def, entry, Order.covers_ofCoords]
  rfl

theorem map_fst_entries (t : Tree) : t.entries.map (·.1) = t.toList := by
  rw [entries, List.map_map]
  rfl

end Tree

namespace Cursor

variable {t : Tree} {wanted : Coords} {index : Option PredicateIndex}

/-- Where a cursor stops at occurrence `j`. -/
def places (t : Tree) (wanted : Coords) (j : Nat) : List Nat :=
  let c := start t wanted .scan none .empty
  if c.admits j then (c.runOf j).toList.takeWhile c.wants else []

theorem places_eq (c : Cursor) (j : Nat) :
    places c.tree c.wanted j =
      if c.admits j then (c.runOf j).toList.takeWhile c.wants else [] := rfl

/-- The occurrences that a plan goes through. -/
def walk (t : Tree) (wanted : Coords) (index : Option PredicateIndex) :
    List Nat :=
  if t.outOfReach wanted then []
  else if wanted.major ≠ 0 then
    let occurrences := t.middles.keySpan wanted.major.toNat
    if wanted.middle = 0 then occurrences.toList
    else (t.middles.find? occurrences wanted.middle).toList
  else if wanted.middle ≠ 0 then
    match index with
    | some x => (x.slots wanted.middle.toNat).toList.map x.slotValue
    | none => List.range t.middles.size
  else List.range t.middles.size

/-- A run is entered at one of its triples or at its end. -/
theorem runOf_subset {c : Cursor} (h : c.tree.Consistent) {j : Nat}
    (hj : j < c.tree.middles.size) {i : Nat} (hi : i ∈ (c.runOf j).toList) :
    i ∈ (c.tree.run j).toList := by
  unfold runOf at hi
  split at hi
  · exact hi
  · have hmem := Adjacency.lowerBound_mem (a := c.tree.minors)
      (by rwa [h.groups]) c.wanted.minor
    rw [Span.mem_toList] at hi
    rw [Tree.run, Span.mem_toList]
    exact ⟨Nat.le_trans hmem.1 hi.1, hi.2⟩

/-- A cursor stops at triples of the occurrence. -/
theorem places_subset (h : t.Consistent) {j : Nat}
    (hj : j < t.middles.size) {i : Nat} (hi : i ∈ places t wanted j) :
    i ∈ (t.run j).toList := by
  unfold places at hi
  dsimp only at hi
  split at hi
  · exact runOf_subset (c := start t wanted .scan none .empty) h hj
      (List.takeWhile_subset _ hi)
  · cases hi

theorem hits_eq {c : Cursor} (h : c.tree.Consistent) {j : Nat}
    (hj : j < c.tree.middles.size) :
    c.hits j = (places c.tree c.wanted j).map c.tree.entry := by
  rw [hits, places_eq]
  by_cases hadmits : c.admits j = true
  · rw [if_pos hadmits, if_pos hadmits, ofRun]
    apply List.map_congr_left
    intro i hi
    have hrun := runOf_subset h hj (List.takeWhile_subset _ hi)
    rw [Tree.entry, Tree.coords_of_mem_run h hj hrun, found]
  · rw [if_neg hadmits, if_neg hadmits]
    rfl

theorem drain_start_eq (h : t.Consistent) (strategy : Strategy) {slots : Span}
    (hslots : ∀ slot ∈ slots.toList,
      (start t wanted strategy index slots).occurrence slot < t.middles.size) :
    (start t wanted strategy index slots).drain =
      ((slots.toList.map
        (start t wanted strategy index slots).occurrence).flatMap
        (places t wanted)).map t.entry := by
  rw [drain_start, List.flatMap_map, List.map_flatMap]
  apply List.flatMap_congr
  intro slot hslot
  exact hits_eq h (hslots slot hslot)

theorem mem_range_toList {n j : Nat} (h : j ∈ (⟨0, n⟩ : Span).toList) : j < n :=
  (Span.mem_toList.mp h).2

theorem keySpan_lt {a : Adjacency} {k i : Nat} (hpos : 0 < k) (hk : k ≤ a.keys)
    (hi : i ∈ (a.keySpan k).toList) : i < a.size := by
  obtain ⟨k, rfl⟩ := Nat.exists_eq_add_one.mpr hpos
  exact ((Adjacency.mem_keySpan_iff hk).mp hi).1

theorem toList_singleton (i : Nat) : (⟨i, i + 1⟩ : Span).toList = [i] := by
  simp [Span.toList, Span.size]

theorem toList_range (n : Nat) : (⟨0, n⟩ : Span).toList = List.range n := by
  rw [Span.toList, Span.size, List.range_eq_range']
  rfl

theorem not_outOfReach_iff {t : Tree} {wanted : Coords} :
    ¬ t.outOfReach wanted = true ↔
    wanted.major.toNat ≤ t.middles.keys ∧
    wanted.middle.toNat ≤ t.maxMiddle.toNat ∧
      wanted.minor.toNat ≤ t.maxMinor.toNat := by
  simp only [Tree.outOfReach, Bool.or_eq_true, decide_eq_true_eq,
    UInt64.lt_iff_toNat_lt, not_or, Nat.not_lt, and_assoc]
  rfl

theorem toNat_pos {v : UInt64} (h : v ≠ 0) : 0 < v.toNat := by
  rw [Ne, ← UInt64.toNat_inj] at h
  exact Nat.pos_of_ne_zero h

/-- A planned cursor gives the entries at the places of its walk. -/
theorem drain_plan (h : t.Consistent)
    (hwalk : ∀ j ∈ walk t wanted index, j < t.middles.size) :
    (plan t wanted index).drain =
      ((walk t wanted index).flatMap (places t wanted)).map t.entry := by
  unfold plan walk at *
  -- `plan` and `walk` branch alike: each branch is a cursor over the slots of
  -- its walk
  split
  · rw [drain_start]
    rfl
  · next hreach =>
      rw [if_neg hreach] at hwalk
      split
      · next hmajor =>
          rw [if_pos hmajor] at hwalk
          dsimp only at hwalk ⊢
          split
          · next hmiddle =>
              rw [if_pos hmiddle] at hwalk
              rw [drain_start_eq h _ hwalk]
              exact congrArg (fun l => (List.flatMap (places t wanted) l).map
                t.entry) (List.map_id _)
          · next hmiddle =>
              rw [if_neg hmiddle] at hwalk
              split
              · next i hfind =>
                  rw [hfind] at hwalk ⊢
                  rw [drain_start_eq h _
                    (by rw [toList_singleton]; exact hwalk), toList_singleton]
                  rfl
              · next hfind =>
                  rw [hfind, drain_start]
                  rfl
      · next hmajor =>
          rw [if_neg hmajor] at hwalk
          have hscan :
              ∀ strategy,
                (start t wanted strategy none ⟨0, t.middles.size⟩).drain =
              ((List.range t.middles.size).flatMap (places t wanted)).map
                t.entry := by
            intro strategy
            rw [drain_start_eq h _ (fun slot => mem_range_toList), toList_range]
            exact congrArg (fun l => (List.flatMap (places t wanted) l).map
              t.entry) (List.map_id _)
          split
          · next hmiddle =>
              rw [if_pos hmiddle] at hwalk
              cases index with
              | none => exact hscan _
              | some x =>
                  exact drain_start_eq h _ fun slot hslot =>
                    hwalk _ (List.mem_map_of_mem hslot)
          · exact hscan _

end Cursor

end TripleStore
