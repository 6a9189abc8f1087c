import Mathlib.Data.Fintype.EquivFin
import TripleStore.Proofs.Cursor.Completeness

/-!
# Indexes without a conflict

An index that is attached has been compared with the tree, slot by slot: it has
the tree's counts, and each slot names a position that holds its id
(`conflict?_eq_none_iff`). If besides the list of each id ascends, then the
index lists the tree (`lists_of_ascending`). An index that was built has no
conflict with its tree (`conflict?_of_build`).
-/

namespace TripleStore

namespace PredicateIndex

variable {x : PredicateIndex} {t : Tree}

/-- An index has no conflict with a tree if it has the tree's counts and each
slot names a position that holds the slot's id. -/
theorem conflict?_eq_none_iff : x.conflict? t = none ↔
    x.predicates = t.maxMiddle.toNat ∧ x.size = t.middles.size ∧
      ∀ slot < x.size, x.slotValue slot < t.middles.size ∧
        (t.middles.value (x.slotValue slot)).toNat = x.positions.key slot := by
  have hstale : x.positions.toList.find? (isStale t) = none ↔
      ∀ slot < x.size, x.slotValue slot < t.middles.size ∧
        (t.middles.value (x.slotValue slot)).toNat = x.positions.key slot := by
    rw [Adjacency.toList_eq, List.find?_eq_none]
    simp only [List.forall_mem_map, List.mem_range, isStale, Bool.or_eq_true,
      decide_eq_true_eq, not_or, not_not, Nat.not_le]
    rfl
  unfold conflict?
  split
  · next hshape =>
      constructor
      · intro h
        cases h
      · intro h
        exact absurd hshape (not_or.mpr ⟨not_not.mpr h.1, not_not.mpr h.2.1⟩)
  · next hshape =>
      rw [not_or, not_not, not_not] at hshape
      rw [Option.map_eq_none_iff, hstale]
      exact ⟨fun h => ⟨hshape.1, hshape.2, h⟩, fun h => h.2.2⟩

theorem mem_listed_of_key {p slot : Nat} (hpos : 0 < p) (hp : p ≤ x.predicates)
    (hslot : slot < x.size) (hkey : x.positions.key slot = p) :
    x.slotValue slot ∈ x.listed p := by
  obtain ⟨k, rfl⟩ := Nat.exists_eq_add_one.mpr hpos
  exact List.mem_map_of_mem ((Adjacency.mem_keySpan_iff hp).mpr ⟨hslot, hkey⟩)

/-- What is listed for an id are positions that hold it. -/
theorem mem_occurrencesOf_of_listed (h : x.conflict? t = none) {p j : Nat}
    (hpos : 0 < p) (hp : p ≤ x.predicates) (hj : j ∈ x.listed p) :
    j ∈ t.occurrencesOf p := by
  obtain ⟨-, -, hslots⟩ := conflict?_eq_none_iff.mp h
  obtain ⟨k, rfl⟩ := Nat.exists_eq_add_one.mpr hpos
  obtain ⟨slot, hslot, rfl⟩ := List.mem_map.mp hj
  obtain ⟨hlt, hkey⟩ := (Adjacency.mem_keySpan_iff hp).mp hslot
  obtain ⟨hvalue, hid⟩ := hslots slot hlt
  exact Tree.mem_occurrencesOf.mpr ⟨hvalue, hid.trans hkey⟩

/-- Every list of the index ascends. -/
def Ascending (x : PredicateIndex) : Prop :=
  ∀ positions ∈ x.toLists, positions.Pairwise (· < ·)

theorem ascending_iff : x.Ascending ↔ ∀ p, 0 < p → p ≤ x.predicates →
    (x.listed p).Pairwise (· < ·) := by
  constructor
  · intro h p hpos hp
    obtain ⟨k, rfl⟩ := Nat.exists_eq_add_one.mpr hpos
    exact h _ (List.mem_map_of_mem (List.mem_range.mpr hp))
  · intro h positions hpositions
    obtain ⟨k, hk, rfl⟩ := List.mem_map.mp hpositions
    exact h (k + 1) (Nat.succ_pos k) (List.mem_range.mp hk)

/-- An index of a single id lists all its slots for it. -/
theorem listed_of_predicates_eq_one (h : x.predicates = 1) :
    x.listed 1 = (List.range x.size).map x.slotValue := by
  have hspan := x.positions.flatMap_keySpan
  rw [show x.positions.keys = 1 from h] at hspan
  rw [listed, size, ← hspan]
  simp [slots]

/-- Slots of one id whose list ascends name different positions. -/
theorem slotValue_lt_of_pairwise {k i j : Nat}
    (h : (x.listed (k + 1)).Pairwise (· < ·)) (hij : i < j)
    (hi : i ∈ (x.slots (k + 1)).toList) (hj : j ∈ (x.slots (k + 1)).toList) :
    x.slotValue i < x.slotValue j := by
  rw [listed, List.pairwise_map, Span.toList, List.pairwise_iff_getElem] at h
  rw [Span.mem_toList] at hi hj
  have hlen :
      (x.slots (k + 1)).size = (x.slots (k + 1)).stop -
        (x.slots (k + 1)).start := rfl
  have := h (i - (x.slots (k + 1)).start) (j - (x.slots (k + 1)).start)
    (by rw [List.length_range']; omega) (by rw [List.length_range']; omega)
    (by omega)
  rwa [List.getElem_range', List.getElem_range', Nat.one_mul, Nat.one_mul,
    Nat.add_sub_cancel' hi.1, Nat.add_sub_cancel' hj.1] at this

/-- An ascending index without a conflict lists the tree. It names different
positions in different slots and has as many slots as there are positions, so it
names all of them. -/
theorem lists_of_ascending (h : x.conflict? t = none) (hasc : x.Ascending) :
    x.Lists t := by
  obtain ⟨hpredicates, hsize, hslots⟩ := conflict?_eq_none_iff.mp h
  rw [ascending_iff] at hasc
  let f : Fin t.middles.size → Fin t.middles.size := fun i =>
    ⟨x.slotValue i.1, (hslots i.1 (by rw [hsize]; exact i.2)).1⟩
  have hlt : ∀ i j : Fin t.middles.size, i < j → f i ≠ f j := by
    intro i j hij heq
    have hvalue : (f i).1 = (f j).1 := by rw [heq]
    change x.slotValue i.1 = x.slotValue j.1 at hvalue
    have hi : i.1 < x.size := by rw [hsize]; exact i.2
    have hj : j.1 < x.size := by rw [hsize]; exact j.2
    obtain ⟨k, hk, hkey, -⟩ := Adjacency.exists_key (a := x.positions) hi
    have hkey' : x.positions.key j.1 = k + 1 := by
      rw [← (hslots _ hj).2, ← hvalue, (hslots _ hi).2, hkey]
    have := slotValue_lt_of_pairwise (hasc (k + 1) (Nat.succ_pos k) hk) hij
      ((Adjacency.mem_keySpan_iff hk).mpr ⟨hi, hkey⟩)
      ((Adjacency.mem_keySpan_iff hk).mpr ⟨hj, hkey'⟩)
    omega
  have hinjective : Function.Injective f := by
    intro i j heq
    rcases lt_trichotomy i j with hij | hij | hij
    · exact absurd heq (hlt i j hij)
    · exact hij
    · exact absurd heq.symm (hlt j i hij)
  intro p hpos hp
  rw [← hpredicates] at hp
  apply (hasc p hpos hp).eq_of_mem_iff (t.pairwise_occurrencesOf p)
  intro j
  refine ⟨mem_occurrencesOf_of_listed h hpos hp, fun hj => ?_⟩
  obtain ⟨hj, hid⟩ := Tree.mem_occurrencesOf.mp hj
  obtain ⟨slot, hslot⟩ :=
    (Finite.injective_iff_surjective.mp hinjective) ⟨j, hj⟩
  have hvalue : (f slot).1 = j := by rw [hslot]
  change x.slotValue slot.1 = j at hvalue
  have hsl : slot.1 < x.size := by rw [hsize]; exact slot.2
  rw [← hvalue]
  exact mem_listed_of_key hpos hp hsl (by rw [← (hslots _ hsl).2, hvalue, hid])

/-! ## Built indexes -/

section Groups

variable {n : Nat} (hnone : ∀ j < t.middles.size, ¬ isForeign t n j = true)
include hnone

/-- The lists of all ids together are all positions, if there are no other ids. -/
theorem flatMap_occurrencesOf_perm :
    ((List.range n).flatMap fun k => t.occurrencesOf (k + 1)).Perm
      (List.range t.middles.size) := by
  rw [List.perm_ext_iff_of_nodup _ List.nodup_range]
  · intro j
    rw [List.mem_flatMap, List.mem_range]
    constructor
    · rintro ⟨k, -, hj⟩
      exact (Tree.mem_occurrencesOf.mp hj).1
    · intro hj
      obtain ⟨hpos, hle⟩ := not_isForeign_iff.mp (hnone j hj)
      exact ⟨(t.middles.value j).toNat - 1, List.mem_range.mpr (by omega),
        Tree.mem_occurrencesOf.mpr ⟨hj, by omega⟩⟩
  · rw [List.nodup_flatMap]
    refine ⟨fun k _ => (t.pairwise_occurrencesOf (k + 1)).imp Nat.ne_of_lt, ?_⟩
    refine List.pairwise_lt_range.imp fun {i k} hik j hi hk => ?_
    have := (Tree.mem_occurrencesOf.mp hi).2
    have := (Tree.mem_occurrencesOf.mp hk).2
    omega

theorem toList_groups : (groups t n).toList =
    (List.range n).map fun k => (t.occurrencesOf (k + 1)).map (·.toUInt64) := by
  apply List.ext_getElem?
  intro k
  rw [Array.getElem?_toList, List.getElem?_map]
  rcases Nat.lt_or_ge k n with hk | hk
  · rw [getElem?_groups hk hnone, List.getElem?_range hk]
    rfl
  · rw [Array.getElem?_eq_none (by rwa [size_groups]),
      List.getElem?_eq_none (by simpa using hk)]
    rfl

/-- Every position is in one of the groups. -/
theorem length_flatten_groups :
    (groups t n).toList.flatten.length = t.middles.size := by
  have hlength := (flatMap_occurrencesOf_perm hnone).length_eq
  rw [List.length_flatMap, List.length_range] at hlength
  rw [toList_groups hnone, List.length_flatten, List.map_map, ← hlength]
  congr 1
  exact List.map_congr_left fun k _ => List.length_map _

end Groups

/-- An index that was built has the ids of its tree. -/
theorem predicates_of_build (h : build t = .ok x) :
    x.predicates = t.maxMiddle.toNat := by
  obtain ⟨hne, hholds⟩ := Adjacency.holds_of_build (groups_of_build h).2
  rw [predicates, Adjacency.keys_of_groups hne hholds, Array.length_toList,
    size_groups]

theorem listed_of_build (h : build t = .ok x) {k : Nat}
    (hk : k < x.predicates) :
    x.listed (k + 1) = t.occurrencesOf (k + 1) :=
  lists_of_build h (k + 1) (Nat.succ_pos k) (predicates_of_build h ▸ hk)

/-- Side by side, the lists of the ids are what the slots of a built index hold,
and these are all positions. -/
theorem perm_of_build (h : build t = .ok x) :
    ((List.range x.size).map x.slotValue).Perm (List.range t.middles.size) := by
  have hslots : (List.range x.size).map x.slotValue =
      (List.range x.predicates).flatMap fun k => t.occurrencesOf (k + 1) := by
    rw [size, ← x.positions.flatMap_keySpan, List.map_flatMap]
    exact List.flatMap_congr fun k hk =>
      listed_of_build h (List.mem_range.mp hk)
  rw [hslots, predicates_of_build h]
  exact flatMap_occurrencesOf_perm (groups_of_build h).1

/-- An index that was built has no conflict with its tree. -/
theorem conflict?_of_build (h : build t = .ok x) : x.conflict? t = none := by
  rw [conflict?_eq_none_iff]
  refine ⟨predicates_of_build h, ?_, fun slot hslot => ?_⟩
  · simpa using (perm_of_build h).length_eq
  · obtain ⟨k, hk, hkey, -⟩ := Adjacency.exists_key (a := x.positions) hslot
    have hmem := mem_listed_of_key (Nat.succ_pos k) hk hslot hkey
    rw [listed_of_build h hk, Tree.mem_occurrencesOf] at hmem
    exact ⟨hmem.1, hmem.2.trans hkey.symm⟩

end PredicateIndex

end TripleStore
