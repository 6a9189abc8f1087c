import TripleStore.Proofs.Cursor.Losses
import TripleStore.Proofs.Store.Built
import TripleStore.Proofs.Tree.Section

/-!
# Answers of a store that was loaded

Reading checks the counts of a tree and its largest ids, but not that its ids
ascend. A store that was loaded answers every pattern with the triples of its
own iteration that the pattern covers exactly if its ids are found where they
stand, and without the id 0 that is exactly if they ascend
(`find_complete_iff`).
-/

namespace TripleStore

/-- What has been read is consistent. -/
theorem Tree.consistent_of_ofBacking {config : Config}
    {backing : Backing} {t : Tree}
    (h : (Tree.ofBacking config backing).result = .ok t) : t.Consistent := by
  refine Scan.of_run (Scan.yields_whole ?_) h
  refine Scan.yields_bind fun _ => Scan.yields_bind fun _ =>
    Scan.yields_bind fun order =>
    Scan.yields_bind fun size => Scan.yields_bind fun maxMiddle =>
    Scan.yields_bind fun maxMinor =>
    Scan.yields_bind fun middles => Scan.yields_bind fun minors => ?_
  dsimp only
  split
  · exact Scan.yields_throw _ _
  · next hnone => exact Scan.yields_pure (Tree.mismatch?_eq_none_iff.mp hnone).2

namespace Store

variable {config : Config} {bytes : Bytes} {s : Store}

theorem ofBytes_eq_ok (h : (ofBytes config bytes).result = .ok s) :
    s.tree.Consistent ∧ s.Sound := by
  obtain ⟨t, hread, hpolicy⟩ := Outcome.result_bind_eq_ok.mp h
  have hconsistent := Tree.consistent_of_ofBacking hread
  have hsound := sound_ofTree t config.indexPolicy
  rcases applyPolicy_eq_ok hpolicy with rfl | rfl
  · exact ⟨hconsistent, hsound⟩
  · exact ⟨by rw [tree_ensureIndex]; exact hconsistent,
      sound_ensureIndex hsound⟩

/-- The bytes of a consistent tree give a store with the same tree. -/
theorem ofBytes_toBytes {t : Tree} (h : t.Consistent) (config : Config) :
    ∃ s, (ofBytes config t.toBytes).result = .ok s ∧ t.Same s.tree := by
  obtain ⟨u, hsame, hread⟩ :=
    Tree.ofBacking_write h .standard config (.ofBytes t.toBytes) rfl
  obtain ⟨s, happly, htree⟩ := (ofTree u config.indexPolicy).exists_applyPolicy
  refine ⟨s, ?_, htree ▸ hsame⟩
  rw [ofBytes, ofBacking, Outcome.result_bind, hread]
  exact happly

/-- A store whose index is its tree's answers completely exactly if ids are
found. -/
theorem complete_iff_findable (h : s.tree.Consistent) (hsound : s.Sound) :
    (∀ pattern, s.find pattern = (s.find .any).filter pattern.covers) ↔
    s.tree.Findable := by
  rw [find_any h]
  refine ⟨fun hcomplete => ?_, fun hfind => find_eq_filter h hfind hsound⟩
  apply Cursor.Exhaustive.findable _ h
  intro wanted
  have hcomplete := hcomplete (s.tree.order.ofCoords wanted)
  have hindex := sound_prepare hsound (s.tree.order.ofCoords wanted)
  rw [Sound, Keeps, tree_prepare] at hindex
  refine ⟨(s.prepare (s.tree.order.ofCoords wanted)).1.index?, ?_⟩
  have hfilter : s.tree.toList.filter (s.tree.order.ofCoords wanted).covers =
      (s.tree.entries.filter fun e => (s.tree.order.ofCoords wanted).covers
        e.1).map (·.1) := by
    rw [← Tree.map_fst_entries, List.filter_map]
    rfl
  rw [find, search, Order.toCoords_ofCoords, Cursor.drain_plan h, hfilter,
    Tree.entries_filter h, Order.toCoords_ofCoords] at hcomplete
  · simpa using congrArg List.length hcomplete
  · apply Cursor.walk_lt
    intro x hx p hpos hp j hj
    rw [hindex x hx p hpos hp] at hj
    exact (Tree.mem_occurrencesOf.mp hj).1

/-- If no triple of the iteration has an id 0, then none is stored. -/
theorem values_ne_zero (h : s.tree.Consistent)
    (hconcrete : ∀ t ∈ s.find .any, t.Concrete) :
    (∀ j < s.tree.middles.size, s.tree.middles.value j ≠ 0) ∧
      ∀ i < s.tree.size, s.tree.minors.value i ≠ 0 := by
  have hcoords : ∀ i < s.tree.size, (s.tree.coords i).middle ≠ 0 ∧
      (s.tree.coords i).minor ≠ 0 := by
    intro i hi
    have hmem : s.tree.order.ofCoords (s.tree.coords i) ∈ s.find .any := by
      rw [find_any h]
      exact List.mem_map_of_mem (List.mem_range.mpr hi)
    have hzero := (s.tree.order.hasZero_toCoords _).mpr (hconcrete _ hmem)
    rw [Order.toCoords_ofCoords] at hzero
    simp only [Coords.hasZero, Bool.or_eq_false_iff,
      beq_eq_false_iff_ne] at hzero
    exact ⟨hzero.1.2, hzero.2⟩
  refine ⟨fun j hj => ?_, fun i hi => (hcoords i hi).2⟩
  obtain ⟨i, hi⟩ := List.exists_mem_of_ne_nil _ (Tree.run_ne_nil h hj)
  have hsize := ((Adjacency.mem_keySpan_iff (by rwa [h.groups])).mp hi).1
  have hmiddle := (hcoords i hsize).1
  rwa [Tree.coords_of_mem_run h hj hi] at hmiddle

/-- Every pattern gives the triples of the iteration that it covers, in their
order and as often as they come, exactly if the ids other than 0 are found where
they stand. If there is no id 0, this means that the ids ascend. -/
theorem find_complete_iff (h : (ofBytes config bytes).result = .ok s) :
    ((∀ pattern, s.find pattern = (s.find .any).filter pattern.covers) ↔
      s.tree.Findable) ∧
      ((∀ t ∈ s.find .any, t.Concrete) →
        (s.tree.Findable ↔ s.tree.Ascending)) := by
  obtain ⟨hconsistent, hsound⟩ := ofBytes_eq_ok h
  refine ⟨complete_iff_findable hconsistent hsound, fun hconcrete => ?_⟩
  obtain ⟨hmiddles, hminors⟩ := values_ne_zero hconsistent hconcrete
  exact Tree.findable_iff_ascending hmiddles hminors

theorem find_complete_ascending : ∃ a b s, Adjacency.build [[1, 2]] = .ok a ∧
    Adjacency.build [[1], [1]] = .ok b ∧
    (ofBytes .standard (Tree.toBytes ⟨.spo, a, b, 2, 1⟩)).result = .ok s ∧
    ∀ pattern, s.find pattern = (s.find .any).filter pattern.covers := by
  have heval : ((do
      let a ← Adjacency.build [[1, 2]]
      let b ← Adjacency.build [[1], [1]]
      return (Tree.mismatch? ⟨.spo, a, b, 2, 1⟩ 2,
        (a.size, a.value 0, a.value 1), (b.size, b.isLast 0)) :
        Except Error (Option FormatFault × (Nat × UInt64 × UInt64) ×
          (Nat × Bool)))).toOption =
      some (none, (2, 1, 2), (2, true)) := by decide +kernel
  obtain ⟨a, ha, heval⟩ := bind_eq_ok.mp (toOption_eq_some.mp heval)
  obtain ⟨b, hb, heval⟩ := bind_eq_ok.mp heval
  have heval := Except.ok.inj heval
  simp only [Prod.mk.injEq] at heval
  obtain ⟨hnone, ⟨hsize, hfirst, hsecond⟩, htriples, hlast⟩ := heval
  obtain ⟨s, hs, hsame⟩ :=
    ofBytes_toBytes (Tree.mismatch?_eq_none_iff.mp hnone).2 .standard
  have hmiddles : a.Same s.tree.middles := hsame.middles
  have hminors : b.Same s.tree.minors := hsame.minors
  refine ⟨a, b, s, ha, hb, hs,
    (find_complete_iff hs).1.mpr (Tree.Ascending.findable ⟨?_, ?_⟩)⟩
  · intro j hj _
    rw [← hmiddles.size, hsize] at hj
    obtain rfl : j = 0 := by omega
    rw [← hmiddles.value (by omega), ← hmiddles.value (by omega),
      hfirst, hsecond]
    decide
  · intro i hi hnot
    rw [Tree.size, ← hminors.size, htriples] at hi
    obtain rfl : i = 0 := by omega
    rw [← hminors.isLast (by omega), hlast] at hnot
    cases hnot

/-- Bytes with middle ids out of order are accepted, and one of the ids is lost:
its triple comes in the iteration but the pattern that asks for it gives
nothing. -/
theorem find_incomplete_unsorted : ∃ a b s, Adjacency.build [[2, 1]] = .ok a ∧
    Adjacency.build [[1], [1]] = .ok b ∧
    (ofBytes .standard (Tree.toBytes ⟨.spo, a, b, 2, 1⟩)).result = .ok s ∧
    s.find .any = [⟨1, 2, 1⟩, ⟨1, 1, 1⟩] ∧ s.find ⟨1, 2, 0⟩ = [] := by
  have heval : ((do
      let a ← Adjacency.build [[2, 1]]
      let b ← Adjacency.build [[1], [1]]
      return (Tree.mismatch? ⟨.spo, a, b, 2, 1⟩ 2, (a.keys, a.size, a.value 1),
        Tree.toList ⟨.spo, a, b, 2, 1⟩) :
        Except Error (Option FormatFault × (Nat × Nat × UInt64) ×
          List Triple))).toOption =
      some (none, (1, 2, 1), [⟨1, 2, 1⟩, ⟨1, 1, 1⟩]) := by decide +kernel
  obtain ⟨a, ha, heval⟩ := bind_eq_ok.mp (toOption_eq_some.mp heval)
  obtain ⟨b, hb, heval⟩ := bind_eq_ok.mp heval
  have heval := Except.ok.inj heval
  simp only [Prod.mk.injEq] at heval
  obtain ⟨hnone, ⟨hkeys, hsize, hvalue⟩, hlist⟩ := heval
  have hwritten := (Tree.mismatch?_eq_none_iff.mp hnone).2
  obtain ⟨s, hs, hsame⟩ := ofBytes_toBytes hwritten .standard
  have hconsistent := hsame.consistent hwritten
  have hmiddles : a.Same s.tree.middles := hsame.middles
  rw [hsame.toList hwritten] at hlist
  rw [hmiddles.value (by omega)] at hvalue
  rw [hmiddles.keys] at hkeys
  rw [hmiddles.size] at hsize
  have horder : Order.spo = s.tree.order := hsame.order
  have hmax : (2 : Id) = s.tree.maxMiddle := hsame.maxMiddle
  refine ⟨a, b, s, ha, hb, hs, by rw [find_any hconsistent, hlist], ?_⟩
  -- the search for 2 among 2 and 1 goes to the right of 1, where nothing is left
  have hbound : s.tree.middles.bound 1 = 2 := by
    rw [← hkeys, Adjacency.bound_keys, hsize]
  have hlower : s.tree.middles.lowerBound 0 2 2 = 2 := by
    rw [Adjacency.lowerBound_eq_halve,
      halve_right (by decide) (by simp [hvalue])]
    rw [halve, if_neg (by decide)]
  have hfind : s.tree.middles.find? (s.tree.middles.keySpan 1) 2 = none := by
    rw [Adjacency.keySpan_succ s.tree.middles 0, Adjacency.bound_zero, hbound,
      Adjacency.find?]
    dsimp only
    rw [hlower, if_neg (by omega)]
  have hreach : ¬ s.tree.outOfReach ⟨1, 2, 0⟩ = true :=
    Cursor.not_outOfReach_iff.mpr ⟨by rw [hkeys]; decide, by rw [← hmax],
      Nat.zero_le _⟩
  have hwalk :
      Cursor.walk s.tree ⟨1, 2, 0⟩ (s.prepare ⟨1, 2, 0⟩).1.index? = [] := by
    unfold Cursor.walk
    rw [if_neg hreach]
    exact congrArg Option.toList hfind
  have hpattern : s.tree.order.toCoords ⟨1, 2, 0⟩ = ⟨1, 2, 0⟩ := by
    rw [← horder]; rfl
  rw [find, search, hpattern,
    Cursor.drain_plan hconsistent (by rw [hwalk]; simp), hwalk]
  rfl

end Store

end TripleStore
