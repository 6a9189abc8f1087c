import TripleStore.PredicateIndex.Basic
import TripleStore.Proofs.Adjacency.Building

/-!
# The middle ids turned round

An index lists a tree if each middle id has the positions at which it occurs, in
ascending order and none twice (`Lists`). That is what building gives
(`lists_of_build`).
-/

namespace TripleStore

namespace Tree

/-- The positions at which a middle id occurs. -/
def occurrencesOf (t : Tree) (p : Nat) : List Nat :=
  (List.range t.middles.size).filter fun j => (t.middles.value j).toNat = p

theorem mem_occurrencesOf {t : Tree} {p j : Nat} :
    j ∈ t.occurrencesOf p ↔
    j < t.middles.size ∧ (t.middles.value j).toNat = p := by
  rw [occurrencesOf, List.mem_filter, List.mem_range, decide_eq_true_eq]

theorem pairwise_occurrencesOf (t : Tree) (p : Nat) :
    (t.occurrencesOf p).Pairwise (· < ·) :=
  List.Pairwise.sublist List.filter_sublist List.pairwise_lt_range

end Tree

namespace PredicateIndex

variable {t : Tree} {x : PredicateIndex}

/-- The positions that the index has for the middle id `p`. -/
def listed (x : PredicateIndex) (p : Nat) : List Nat :=
  (x.slots p).toList.map x.slotValue

/-- The index has for each middle id the positions at which it occurs. -/
def Lists (x : PredicateIndex) (t : Tree) : Prop :=
  ∀ p, 0 < p → p ≤ t.maxMiddle.toNat → x.listed p = t.occurrencesOf p

theorem not_isForeign_iff {n j : Nat} : ¬ isForeign t n j = true ↔
    0 < (t.middles.value j).toNat ∧ (t.middles.value j).toNat ≤ n := by
  rw [isForeign, Bool.or_eq_true, decide_eq_true_eq, decide_eq_true_eq,
    not_or, Nat.not_lt, ← UInt64.toNat_inj, Nat.pos_iff_ne_zero]
  rfl

/-- Each position goes to the front of the list of its id. -/
theorem getElem?_foldr_modify (key : Nat → Nat) {n q : Nat} (hq : q < n)
    (l : List Nat) :
    (l.foldr (fun i groups => groups.modify (key i) (i.toUInt64 :: ·))
      (Array.replicate n []))[q]? =
      some ((l.filter fun i => key i = q).map (·.toUInt64)) := by
  induction l with
  | nil => simp [hq]
  | cons i l ih =>
      rw [List.foldr_cons, Array.getElem?_modify, ih, List.filter_cons]
      by_cases h : key i = q
      · simp [h]
      · simp [h]

theorem size_groups (t : Tree) (n : Nat) : (groups t n).size = n := by
  rw [groups]
  generalize List.range t.middles.size = l
  induction l with
  | nil => simp
  | cons i l ih => rw [List.foldr_cons, Array.size_modify, ih]

/-- If no id is foreign, group `q` has the positions of the id `q + 1`. -/
theorem getElem?_groups {n q : Nat} (hq : q < n)
    (hnone : ∀ j < t.middles.size, ¬ isForeign t n j = true) :
    (groups t n)[q]? = some ((t.occurrencesOf (q + 1)).map (·.toUInt64)) := by
  rw [groups, getElem?_foldr_modify (fun i => (t.middles.value i).toNat - 1) hq]
  congr 2
  apply List.filter_congr
  intro j hj
  have hpos := (not_isForeign_iff.mp (hnone j (List.mem_range.mp hj))).1
  exact decide_eq_decide.mpr (by omega)

/-- What can be built is made of the groups, and there are no foreign ids. -/
theorem groups_of_build (h : build t = .ok x) :
    (∀ j < t.middles.size, ¬ isForeign t t.maxMiddle.toNat j = true) ∧
      Adjacency.build (groups t t.maxMiddle.toNat).toList =
        .ok x.positions := by
  unfold build at h
  dsimp only at h
  split at h
  · cases h
  split at h
  · cases h
  next hnone =>
  split at h
  · cases h
  refine ⟨fun j hj => ?_, ?_⟩
  · have hj := List.find?_eq_none.mp hnone j (List.mem_range.mpr hj)
    exact hj
  · cases hbuild : Adjacency.build (groups t t.maxMiddle.toNat).toList with
    | error e =>
        rw [hbuild] at h
        cases h
    | ok a =>
        rw [hbuild] at h
        cases h
        rfl

theorem lists_of_build (h : build t = .ok x) : x.Lists t := by
  obtain ⟨hnone, hbuild⟩ := groups_of_build h
  obtain ⟨hne, hholds⟩ := Adjacency.holds_of_build hbuild
  intro p hpos hp
  obtain ⟨q, rfl⟩ := Nat.exists_eq_add_one.mpr hpos
  have hq : q < (groups t t.maxMiddle.toNat).toList.length := by
    rw [Array.length_toList, size_groups]
    exact hp
  have hgroup :
      (groups t t.maxMiddle.toNat).toList[q] =
        (t.occurrencesOf (q + 1)).map (·.toUInt64) := by
    have := getElem?_groups hp hnone
    rw [Array.getElem?_eq_getElem (by rw [size_groups]; exact hp),
      Option.some.injEq] at this
    exact this
  have hspan := Adjacency.map_keySpan_of_groups hne hholds hq
  rw [hgroup] at hspan
  have hlisted :
      x.listed (q + 1) =
        ((x.positions.keySpan (q + 1)).toList.map x.positions.value).map
      (·.toNat) := by
    rw [List.map_map]
    rfl
  rw [hlisted, hspan, List.map_map]
  conv => rhs; rw [← List.map_id (t.occurrencesOf (q + 1))]
  apply List.map_congr_left
  intro j hj
  have hlt := (Tree.mem_occurrencesOf.mp hj).1
  have hsize := t.middles.size_le
  exact Adjacency.toNat_toUInt64 (by omega)

end PredicateIndex

end TripleStore
