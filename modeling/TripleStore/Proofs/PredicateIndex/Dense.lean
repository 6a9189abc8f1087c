import TripleStore.Proofs.Checked.CountingSort
import TripleStore.Proofs.Store.Checked

/-!
# When there is an index

A tree has an index exactly if its middle ids are dense: none is 0, and each one
up to the largest occurs. The index lists for each id where it occurs, and has a
single slot for each position (`index_exact`).
-/

namespace TripleStore

namespace Tree

variable {t : Tree}

/-- No middle id is 0, and each one from 1 up to the largest occurs. -/
structure Dense (t : Tree) : Prop where
  ne_zero : ∀ j < t.middles.size, t.middles.value j ≠ 0
  occurs : ∀ p, 0 < p → p ≤ t.maxMiddle.toNat →
    ∃ j < t.middles.size, (t.middles.value j).toNat = p

/-- Ids that all occur are not more than the positions at which they do. -/
theorem Dense.maxMiddle_le (h : t.Dense) :
    t.maxMiddle.toNat ≤ t.middles.size := by
  have hoccur : List.range' 1 t.maxMiddle.toNat ⊆
      (List.range t.middles.size).map fun j => (t.middles.value j).toNat := by
    intro p hp
    obtain ⟨hpos, hle⟩ := List.mem_range'_1.mp hp
    obtain ⟨j, hj, hid⟩ := h.occurs p hpos (by omega)
    exact List.mem_map.mpr ⟨j, List.mem_range.mpr hj, hid⟩
  have hnodup : (List.range' 1 t.maxMiddle.toNat).Nodup := List.nodup_range'
  simpa using (hnodup.subperm hoccur).length_le

end Tree

namespace PredicateIndex

variable {t : Tree} {x : PredicateIndex} {n : Nat}

theorem isForeign_iff (h : t.Consistent) {j : Nat} (hj : j < t.middles.size) :
    isForeign t t.maxMiddle.toNat j = true ↔ t.middles.value j = 0 := by
  have hle : (t.middles.value j).toNat ≤ t.maxMiddle.toNat := by
    rw [h.maxMiddle]
    exact Adjacency.value_le_maximum hj
  simp [isForeign, Nat.not_lt.mpr hle]

/-! ## Existence -/

/-- Groups are stored, unless one of them is empty. -/
theorem exists_build_groups
    (hnone : ∀ j < t.middles.size, ¬ isForeign t n j = true)
    (hempty : (groups t n).findIdx? List.isEmpty = none) :
    ∃ a, Adjacency.build (groups t n).toList = .ok a := by
  apply Adjacency.exists_build
  · intro g hg hnil
    have := Array.findIdx?_eq_none_iff.mp hempty g (Array.mem_toList_iff.mp hg)
    simp [hnil] at this
  · rw [length_flatten_groups hnone]
    exact t.middles.size_le

/-- If there is no index, that is because of the tree's ids. -/
theorem build_cases (t : Tree) :
    (∃ x, build t = .ok x) ∨
    ∃ fault, build t = .error (.construction fault) := by
  unfold build
  dsimp only
  split
  · exact .inr ⟨_, rfl⟩
  split
  · exact .inr ⟨_, rfl⟩
  next hnone =>
  split
  · exact .inr ⟨_, rfl⟩
  next hempty =>
  obtain ⟨a, ha⟩ := exists_build_groups
    (fun j hj => List.find?_eq_none.mp hnone j (List.mem_range.mpr hj)) hempty
  rw [ha]
  exact .inl ⟨⟨a⟩, rfl⟩

theorem dense_of_build (h : build t = .ok x) : t.Dense := by
  obtain ⟨hnone, hbuild⟩ := groups_of_build h
  constructor
  case ne_zero =>
    intro j hj hzero
    exact hnone j hj (by simp [isForeign, hzero])
  case occurs =>
    intro p hpos hp
    obtain ⟨k, rfl⟩ := Nat.exists_eq_add_one.mpr hpos
    have hgroup :
        (t.occurrencesOf (k + 1)).map (·.toUInt64) ∈
          (groups t t.maxMiddle.toNat).toList := by
      rw [toList_groups hnone]
      exact List.mem_map.mpr ⟨k, List.mem_range.mpr hp, rfl⟩
    have hne := (Adjacency.holds_of_build hbuild).1 _ hgroup
    obtain ⟨j, hj⟩ := List.exists_mem_of_ne_nil _
      (mt List.map_eq_nil_iff.mpr hne)
    exact ⟨j, Tree.mem_occurrencesOf.mp hj⟩

theorem exists_build_of_dense (h : t.Consistent) (hdense : t.Dense) :
    ∃ x, build t = .ok x := by
  have hnone : ∀ j < t.middles.size, ¬ isForeign t t.maxMiddle.toNat j = true :=
    fun j hj hforeign => hdense.ne_zero j hj ((isForeign_iff h hj).mp hforeign)
  have hfind :
      (List.range t.middles.size).find?
        (isForeign t t.maxMiddle.toNat) = none :=
    List.find?_eq_none.mpr fun j hj => hnone j (List.mem_range.mp hj)
  have hempty : (groups t t.maxMiddle.toNat).findIdx? List.isEmpty = none := by
    rw [Array.findIdx?_eq_none_iff]
    intro g hg
    rw [← Array.mem_toList_iff, toList_groups hnone] at hg
    obtain ⟨k, hk, rfl⟩ := List.mem_map.mp hg
    obtain ⟨j, hj⟩ := hdense.occurs (k + 1) (Nat.succ_pos k)
      (List.mem_range.mp hk)
    rw [List.isEmpty_eq_false_iff, Ne, List.map_eq_nil_iff]
    exact List.ne_nil_of_mem (Tree.mem_occurrencesOf.mpr hj)
  obtain ⟨a, ha⟩ := exists_build_groups hnone hempty
  refine ⟨⟨a⟩, ?_⟩
  rw [build]
  dsimp only
  rw [if_neg (Nat.not_lt.mpr hdense.maxMiddle_le), hfind, hempty, ha]
  rfl

/-! ## Slots -/

theorem position_eq_ok {slot j : Nat} :
    x.position slot = .ok j ↔ slot < x.size ∧ x.slotValue slot = j := by
  rw [position, Adjacency.valueAt, Sequence.get]
  change (if slot < x.size then _ else _) >>= _ = _ ↔ _
  split
  · next hslot => simp [hslot, slotValue, Adjacency.value]
  · next hslot => simp [hslot]

theorem mapM_position {l : List Nat} (h : ∀ slot ∈ l, slot < x.size) :
    l.mapM x.position = .ok (l.map x.slotValue) :=
  mapM_eq_ok fun slot hslot => position_eq_ok.mpr ⟨h slot hslot, rfl⟩

/-- The slots of an id of the tree hold the positions at which the id occurs. -/
theorem occurrences_of_build (h : build t = .ok x) {p : Nat} (hpos : 0 < p)
    (hp : p ≤ t.maxMiddle.toNat) :
    ∃ slots, x.occurrences p = .ok slots ∧
      slots.toList.mapM x.position = .ok (t.occurrencesOf p) := by
  obtain ⟨k, rfl⟩ := Nat.exists_eq_add_one.mpr hpos
  have hk : k < x.predicates := predicates_of_build h ▸ hp
  have hrange : ¬ (k + 1 = 0 ∨ x.positions.keys < k + 1) := by
    rintro (hzero | hlt)
    · cases hzero
    · exact absurd hk (Nat.not_lt.mpr (Nat.le_of_lt_succ hlt))
  have hslots : ∀ slot ∈ (x.slots (k + 1)).toList, slot < x.size :=
    fun slot hslot => ((Adjacency.mem_keySpan_iff hk).mp hslot).1
  refine ⟨x.slots (k + 1), if_neg hrange, ?_⟩
  rw [mapM_position hslots, ← listed_of_build h hk]
  rfl

/-- Every position has one slot. -/
theorem existsUnique_slot (h : build t = .ok x) {j : Nat}
    (hj : j < t.middles.size) :
    ∃! slot, x.position slot = .ok j := by
  have hperm := perm_of_build h
  obtain ⟨slot, hslot, hvalue⟩ :=
    List.mem_map.mp (hperm.mem_iff.mpr (List.mem_range.mpr hj))
  refine ⟨slot, position_eq_ok.mpr ⟨List.mem_range.mp hslot, hvalue⟩,
    fun other hother => ?_⟩
  obtain ⟨hlt, hvalue'⟩ := position_eq_ok.mp hother
  exact List.inj_on_of_nodup_map (hperm.nodup_iff.mpr List.nodup_range)
    (List.mem_range.mpr hlt) hslot
    (hvalue'.trans hvalue.symm)

end PredicateIndex

/-- A store that was built or loaded, its ids in any order, has an index exactly
if they are dense, and otherwise none can be built. A counting sort gives the
same index and stays in its arrays. An index gives for each id the positions at
which it occurs, in ascending order; each position is in one slot; and the index
passes for one of this store. -/
theorem Store.index_exact {s : Store} (h : s.Made) :
    Checked.sortIndex s.tree = some (PredicateIndex.build s.tree) ∧
    ((∃ x, PredicateIndex.build s.tree = .ok x) ↔ s.tree.Dense) ∧
    (¬ s.tree.Dense → ∃ fault, PredicateIndex.build s.tree =
      .error (.construction fault)) ∧
    ∀ x, PredicateIndex.build s.tree = .ok x →
      (∀ p, 0 < p → p ≤ s.tree.maxMiddle.toNat →
        ∃ slots, x.occurrences p = .ok slots ∧
        slots.toList.mapM x.position = .ok (s.tree.occurrencesOf p)) ∧
      (∀ j < s.tree.middles.size, ∃! slot, x.position slot = .ok j) ∧
      x.conflict? s.tree = none := by
  have hdense : (∃ x, PredicateIndex.build s.tree = .ok x) ↔ s.tree.Dense :=
    ⟨fun ⟨x, hx⟩ => PredicateIndex.dense_of_build hx,
      PredicateIndex.exists_build_of_dense h.consistent⟩
  refine ⟨Checked.sortIndex_eq h.fits, hdense, fun hnot => ?_, fun x hx =>
    ⟨fun p hpos hp => ?_, fun j hj => ?_, ?_⟩⟩
  · exact (PredicateIndex.build_cases s.tree).resolve_left (mt hdense.mp hnot)
  · exact PredicateIndex.occurrences_of_build hx hpos hp
  · exact PredicateIndex.existsUnique_slot hx hj
  · exact PredicateIndex.conflict?_of_build hx

theorem Store.index_exact_unsorted :
    ∃ a b s x, Adjacency.build [[2, 1], [2]] = .ok a ∧
    Adjacency.build [[1], [1], [1]] = .ok b ∧
    (ofBytes ⟨.ops, .mapped, .lazy, .crc32, false⟩
      (Tree.toBytes ⟨.spo, a, b, 2, 1⟩)).result = .ok s ∧
    PredicateIndex.build s.tree = .ok x ∧ s.tree.Dense ∧
    (∃ slots, x.occurrences 2 = .ok slots ∧
      slots.toList.mapM x.position = .ok [0, 2]) ∧
    (∃! slot, x.position slot = .ok 1) ∧ x.conflict? s.tree = none := by
  have heval : ((do
      let a ← Adjacency.build [[2, 1], [2]]
      let b ← Adjacency.build [[1], [1], [1]]
      let s ← (ofBytes ⟨.ops, .mapped, .lazy, .crc32, false⟩
        (Tree.toBytes ⟨.spo, a, b, 2, 1⟩)).result
      let _ ← PredicateIndex.build s.tree
      return (s.tree.maxMiddle, s.tree.middles.size, s.tree.occurrencesOf 2) :
        Except Error (Id × Nat × List Nat))).toOption =
          some (2, 3, [0, 2]) := by decide +kernel
  obtain ⟨a, ha, heval⟩ := bind_eq_ok.mp (toOption_eq_some.mp heval)
  obtain ⟨b, hb, heval⟩ := bind_eq_ok.mp heval
  obtain ⟨s, hs, heval⟩ := bind_eq_ok.mp heval
  obtain ⟨x, hx, heval⟩ := bind_eq_ok.mp heval
  have heval := Except.ok.inj heval
  simp only [Prod.mk.injEq] at heval
  obtain ⟨hmax, hsize, hlist⟩ := heval
  obtain ⟨-, hdense, -, hindex⟩ := index_exact (.loaded _ _ hs)
  obtain ⟨hslots, hposition, hconflict⟩ := hindex x hx
  refine ⟨a, b, s, x, ha, hb, hs, hx, hdense.mp ⟨x, hx⟩, ?_,
    hposition 1 (by omega), hconflict⟩
  rw [← hlist]
  exact hslots 2 (by decide) (by rw [hmax]; decide)

end TripleStore
