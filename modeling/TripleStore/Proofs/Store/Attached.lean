import TripleStore.PredicateIndex.Section
import TripleStore.Proofs.PredicateIndex.Compatible
import TripleStore.Proofs.Store.Built

/-!
# Answers through an index from outside

The comparison with the tree leaves open whether an index that is attached lists
each position once and in ascending order. The answers stay what they were
exactly if it does (`find_attach_iff`): the triples of a middle id tell the
order in which its positions were gone through.
-/

namespace TripleStore

/-- If blocks are not empty and each element tells by its tag which block it is
from, then the blocks that were laid side by side can be read off. -/
theorem eq_of_flatMap_eq {α κ : Type} {block : Nat → List α} (tag : α → κ)
    (key : Nat → κ) {P : Nat → Prop} (hne : ∀ j, P j → block j ≠ [])
    (htag : ∀ j, P j → ∀ a ∈ block j, tag a = key j)
    (hinj : ∀ i j, P i → P j → key i = key j → i = j) {l l' : List Nat}
    (hl : ∀ j ∈ l, P j) (hl' : ∀ j ∈ l', P j)
    (h : l.flatMap block = l'.flatMap block) : l = l' := by
  have hhead : ∀ j, P j → ∀ rest :
      List α, ∃ a, (block j ++ rest).head? = some a ∧ tag a = key j := by
    intro j hj rest
    obtain ⟨a, as, hblock⟩ := List.exists_cons_of_ne_nil (hne j hj)
    exact ⟨a, by rw [hblock]; rfl,
      htag j hj a (by rw [hblock]; exact List.mem_cons_self)⟩
  induction l generalizing l' with
  | nil =>
      cases l' with
      | nil => rfl
      | cons j l' =>
          obtain ⟨a, ha, -⟩ :=
            hhead j (hl' j List.mem_cons_self) (l'.flatMap block)
          rw [List.flatMap_cons] at h
          rw [← h] at ha
          cases ha
  | cons i l ih =>
      cases l' with
      | nil =>
          obtain ⟨a, ha, -⟩ :=
            hhead i (hl i List.mem_cons_self) (l.flatMap block)
          rw [List.flatMap_cons] at h
          rw [h] at ha
          cases ha
      | cons j l' =>
          rw [List.flatMap_cons, List.flatMap_cons] at h
          obtain ⟨a, ha, hi⟩ :=
            hhead i (hl i List.mem_cons_self) (l.flatMap block)
          obtain ⟨b, hb, hj⟩ :=
            hhead j (hl' j List.mem_cons_self) (l'.flatMap block)
          rw [h, hb] at ha
          cases ha
          obtain rfl := hinj i j (hl i List.mem_cons_self)
            (hl' j List.mem_cons_self) (hi.symm.trans hj)
          rw [ih (fun j hj => hl j (List.mem_cons_of_mem _ hj))
            (fun j hj => hl' j (List.mem_cons_of_mem _ hj))
            (List.append_cancel_left h)]

namespace Store

variable {config : Config} {triples : List Triple} {s s' : Store}
  {x : PredicateIndex}

/-- The same triples, without an index and without the leave to build one. -/
def bare (s : Store) : Store := { s with policy := .disabled, cell := .unset }

theorem index?_prepare_bare (s : Store) (pattern : Triple) :
    (s.bare.prepare pattern).1.index? = none := rfl

theorem prepare_of_ready (h : s.cell = .ready x) (pattern : Triple) :
    (s.prepare pattern).1.index? = some x := by
  unfold prepare ensureIndex
  rw [h]
  split <;> rw [index?, h]

section Middle

variable {t : Tree} {v : Id}

theorem not_outOfReach_middle (hv : v ≤ t.maxMiddle) :
    ¬ t.outOfReach ⟨0, v, 0⟩ = true :=
  Cursor.not_outOfReach_iff.mpr
    ⟨Nat.zero_le _, UInt64.le_iff_toNat_le.mp hv, Nat.zero_le _⟩

theorem places_middle (hv : v ≠ 0) (j : Nat) : Cursor.places t ⟨0, v, 0⟩ j =
    if (t.middles.value j).toNat = v.toNat then (t.run j).toList else [] := by
  rw [Cursor.places_of_minor_eq_zero rfl]
  simp [hv, UInt64.toNat_inj]

/-- Without an index, the occurrences with the middle id are gone through in
their order. -/
theorem drain_middle_bare (h : t.Consistent) (hv : v ≠ 0)
    (hle : v ≤ t.maxMiddle) :
    (Cursor.plan t ⟨0, v, 0⟩ none).drain =
      ((t.occurrencesOf v.toNat).flatMap fun j => (t.run j).toList).map
        t.entry := by
  have hwalk : Cursor.walk t ⟨0, v, 0⟩ none = List.range t.middles.size := by
    unfold Cursor.walk
    rw [if_neg (not_outOfReach_middle hle), if_neg (by simp), if_pos hv]
  rw [Cursor.drain_plan h (Cursor.walk_lt fun y hy => by cases hy), hwalk,
    funext (places_middle hv), ← flatMap_filter_of_nil (p := fun j =>
      (t.middles.value j).toNat = v.toNat)
      fun j _ hj => if_neg (by simpa using hj)]
  congr 1
  apply List.flatMap_congr
  intro j hj
  exact if_pos (Tree.mem_occurrencesOf.mp hj).2

/-- Through an index, those that it lists are. -/
theorem drain_middle_index (h : t.Consistent) (hconflict : x.conflict? t = none)
    (hv : v ≠ 0) (hle : v ≤ t.maxMiddle) :
    (Cursor.plan t ⟨0, v, 0⟩ (some x)).drain =
      ((x.listed v.toNat).flatMap fun j => (t.run j).toList).map t.entry := by
  have hmem : ∀ {p j}, 0 < p → p ≤ t.maxMiddle.toNat → j ∈ x.listed p →
      j ∈ t.occurrencesOf p := by
    intro p j hpos hp
    rw [← (PredicateIndex.conflict?_eq_none_iff.mp hconflict).1] at hp
    exact PredicateIndex.mem_occurrencesOf_of_listed hconflict hpos hp
  have hwalk : Cursor.walk t ⟨0, v, 0⟩ (some x) = x.listed v.toNat := by
    unfold Cursor.walk
    rw [if_neg (not_outOfReach_middle hle), if_neg (by simp), if_pos hv]
    rfl
  rw [Cursor.drain_plan h (Cursor.walk_lt fun y hy p hpos hp j hj => by
    cases hy
    exact (Tree.mem_occurrencesOf.mp (hmem hpos hp hj)).1), hwalk,
      funext (places_middle hv)]
  congr 1
  apply List.flatMap_congr
  intro j hj
  exact if_pos (Tree.mem_occurrencesOf.mp
    (hmem (Cursor.toNat_pos hv) (UInt64.le_iff_toNat_le.mp hle) hj)).2

/-- In an ascending tree, the triples of occurrences with one middle id tell in
which order the occurrences were gone through. -/
theorem eq_of_map_run_eq (h : t.Consistent) (hasc : t.Ascending) {p : Nat}
    {l l' : List Nat} (hl : ∀ j ∈ l, j ∈ t.occurrencesOf p)
    (hl' : ∀ j ∈ l', j ∈ t.occurrencesOf p)
    (heq : (l.flatMap fun j => (t.run j).toList).map
      (fun i => t.order.ofCoords (t.coords i)) =
      (l'.flatMap fun j => (t.run j).toList).map fun i => t.order.ofCoords
        (t.coords i)) : l = l' := by
  rw [List.map_flatMap, List.map_flatMap] at heq
  refine eq_of_flatMap_eq (fun u => (t.order.toCoords u).major)
    (fun j => (t.middles.key j).toUInt64)
    (P := (· ∈ t.occurrencesOf p)) ?_ ?_ ?_ hl hl' heq
  · intro j hj
    rw [Ne, List.map_eq_nil_iff]
    exact Tree.run_ne_nil h (Tree.mem_occurrencesOf.mp hj).1
  · intro j hj u hu
    obtain ⟨i, hi, rfl⟩ := List.mem_map.mp hu
    rw [Order.toCoords_ofCoords,
      Tree.coords_of_mem_run h (Tree.mem_occurrencesOf.mp hj).1 hi]
  · intro i j hi hj hkey
    obtain ⟨hi, hp⟩ := Tree.mem_occurrencesOf.mp hi
    obtain ⟨hj, hp'⟩ := Tree.mem_occurrencesOf.mp hj
    rw [← UInt64.toNat_inj, Cursor.key_toUInt64 hi,
      Cursor.key_toUInt64 hj] at hkey
    rcases Nat.lt_trichotomy i j with hlt | heq | hlt
    · have := UInt64.lt_iff_toNat_lt.mp (hasc.middles_lt hlt hj hkey)
      omega
    · exact heq
    · have := UInt64.lt_iff_toNat_lt.mp (hasc.middles_lt hlt hi hkey.symm)
      omega

end Middle

theorem map_fst_entry (t : Tree) (l : List Nat) :
    (l.map t.entry).map (·.1) = l.map fun i =>
      t.order.ofCoords (t.coords i) := by
  rw [List.map_map]
  rfl

/-- An index that is attached to a store that was built leaves all answers as
they are exactly if it has the positions of each id in ascending order. -/
theorem find_attach_iff (h : (build config triples).result = .ok s)
    (hattach : s.attach x = .ok s') :
    (∀ pattern, s'.find pattern = s.bare.find pattern) ↔ x.Ascending := by
  obtain ⟨hbuild, -, -⟩ := build_eq_ok h
  obtain ⟨hconflict, -, rfl⟩ := attach_eq_ok hattach
  have hconsistent := Tree.consistent_of_build hbuild
  have hascending := Tree.ascending_of_build hbuild
  constructor
  · intro hfind
    rw [PredicateIndex.ascending_iff]
    intro p hpos hp
    have hp' := hp
    rw [(PredicateIndex.conflict?_eq_none_iff.mp hconflict).1] at hp'
    obtain ⟨v, rfl⟩ : ∃ v : UInt64, v.toNat = p := by
      have := s.tree.maxMiddle.toNat_lt
      exact ⟨p.toUInt64, UInt64.toNat_ofNat_of_lt' (by rw [UInt64.size]; omega)⟩
    have hv : v ≠ 0 := by
      rintro rfl
      exact Nat.lt_irrefl 0 hpos
    have hle := UInt64.le_iff_toNat_le.mpr hp'
    have hfind := hfind (s.tree.order.ofCoords ⟨0, v, 0⟩)
    rw [find, find, search, search, prepare_of_ready rfl,
      index?_prepare_bare] at hfind
    simp only [bare, Order.toCoords_ofCoords] at hfind
    rw [drain_middle_index hconsistent hconflict hv hle,
      drain_middle_bare hconsistent hv hle, map_fst_entry,
      map_fst_entry] at hfind
    rw [eq_of_map_run_eq hconsistent hascending
      (fun j hj => PredicateIndex.mem_occurrencesOf_of_listed
        hconflict hpos hp hj)
      (fun j hj => hj) hfind]
    exact s.tree.pairwise_occurrencesOf _
  · intro hasc pattern
    have hsound : Sound { s with cell := .ready x } := by
      intro y hy
      cases hy
      exact PredicateIndex.lists_of_ascending hconflict hasc
    have hbare : s.bare.Sound := sound_of_index?_eq_none rfl
    rw [find_eq_filter (s := { s with cell := .ready x }) hconsistent
      hascending.findable hsound,
      find_eq_filter (s := s.bare) hconsistent hascending.findable hbare]
    rfl

theorem find_attach_own : ∃ a s s', Adjacency.build [[0, 1]] = .ok a ∧
    (build .standard [⟨1, 1, 1⟩, ⟨2, 1, 2⟩]).result = .ok s ∧
    s.attach ⟨a⟩ = .ok s' ∧
    ∀ pattern, s'.find pattern = s.bare.find pattern := by
  have heval : ((do
      let a ← Adjacency.build [[0, 1]]
      let s ← (build .standard [⟨1, 1, 1⟩, ⟨2, 1, 2⟩]).result
      let _ ← s.attach ⟨a⟩
      return (a.keys, (List.range a.size).map fun i => (a.value i).toNat) :
        Except Error (Nat × List Nat))).toOption =
          some (1, [0, 1]) := by decide +kernel
  obtain ⟨a, ha, heval⟩ := bind_eq_ok.mp (toOption_eq_some.mp heval)
  obtain ⟨s, hs, heval⟩ := bind_eq_ok.mp heval
  obtain ⟨s', hattach, heval⟩ := bind_eq_ok.mp heval
  obtain ⟨hkeys, hvalues⟩ := Prod.mk.inj (Except.ok.inj heval)
  refine ⟨a, s, s', ha, hs, hattach, (find_attach_iff hs hattach).mpr ?_⟩
  rw [PredicateIndex.ascending_iff]
  intro p hpos hp
  obtain rfl : p = 1 := by
    rw [PredicateIndex.predicates, hkeys] at hp
    omega
  rw [PredicateIndex.listed_of_predicates_eq_one hkeys]
  exact hvalues ▸ (by decide)

/-- The bytes of an index that lists one of two positions twice are accepted,
and so is the index; from then on one of two triples is found twice and the
other is not found. -/
theorem find_attach_doubled : ∃ a x s s', Adjacency.build [[0, 0]] = .ok a ∧
    (PredicateIndex.ofBacking .standard
      (.ofBytes (PredicateIndex.toBytes ⟨a⟩))).result = .ok x ∧
    (build .standard [⟨1, 1, 1⟩, ⟨2, 1, 2⟩]).result = .ok s ∧
    s.attach x = .ok s' ∧
    s'.find ⟨0, 1, 0⟩ = [⟨1, 1, 1⟩, ⟨1, 1, 1⟩] ∧
    s.bare.find ⟨0, 1, 0⟩ = [⟨1, 1, 1⟩, ⟨2, 1, 2⟩] := by
  have heval : ((do
      let a ← Adjacency.build [[0, 0]]
      let x ← (PredicateIndex.ofBacking .standard
        (.ofBytes (PredicateIndex.toBytes ⟨a⟩))).result
      let s ← (build .standard [⟨1, 1, 1⟩, ⟨2, 1, 2⟩]).result
      let _ ← s.attach x
      return ((x.predicates, (List.range x.size).map x.slotValue),
        (s.tree.minors.keys,
          (List.range s.tree.minors.size).filter (s.tree.minors.key · == 1))) :
        Except Error ((Nat × List Nat) × (Nat × List Nat)))).toOption =
      some ((1, [0, 0]), (2, [0])) := by decide +kernel
  obtain ⟨a, ha, heval⟩ := bind_eq_ok.mp (toOption_eq_some.mp heval)
  obtain ⟨x, hx, heval⟩ := bind_eq_ok.mp heval
  obtain ⟨s, hs, heval⟩ := bind_eq_ok.mp heval
  obtain ⟨s', hattach, heval⟩ := bind_eq_ok.mp heval
  have heval := Except.ok.inj heval
  simp only [Prod.mk.injEq] at heval
  obtain ⟨⟨hpredicates, hvalues⟩, hkeys, hrun⟩ := heval
  obtain ⟨hbuild, -, -⟩ := build_eq_ok hs
  obtain ⟨horder, hholds⟩ := Tree.holds_of_build hbuild
  obtain ⟨hconflict, -, rfl⟩ := attach_eq_ok hattach
  have hconsistent := Tree.consistent_of_build hbuild
  refine ⟨a, x, s, _, ha, hx, hs, hattach, ?_, ?_⟩
  · have hpattern : s.tree.order.toCoords ⟨0, 1, 0⟩ = ⟨0, 1, 0⟩ := by
      rw [horder]; rfl
    have hfirst : (s.tree.run 0).toList = [0] := by
      rw [Tree.run, Cursor.keySpan_eq_filter (by decide) (by omega), hrun]
    have hlisted : x.listed (1 : UInt64).toNat = [0, 0] := by
      rw [← hvalues]
      exact PredicateIndex.listed_of_predicates_eq_one hpredicates
    have hmax : s.tree.maxMiddle.toNat = 1 := by
      rw [← (PredicateIndex.conflict?_eq_none_iff.mp hconflict).1, hpredicates]
    rw [find, search, prepare_of_ready rfl]
    dsimp only
    rw [hpattern, drain_middle_index (v := 1) hconsistent hconflict (by decide)
      (UInt64.le_iff_toNat_le.mpr (Nat.le_of_eq hmax.symm)),
      map_fst_entry, hlisted]
    simp only [List.flatMap_cons, hfirst, List.flatMap_nil, List.append_nil,
      List.cons_append, List.nil_append, List.map_cons, List.map_nil,
      hholds.coords 0 (by decide), horder]
    rfl
  · rw [find_eq_filter (s := s.bare) hconsistent
      (Tree.ascending_of_build hbuild).findable
      (sound_of_index?_eq_none rfl)]
    show s.tree.toList.filter _ = _
    rw [hholds.toList]
    decide

end Store

end TripleStore
