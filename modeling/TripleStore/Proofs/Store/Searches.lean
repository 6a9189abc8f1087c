import TripleStore.Proofs.Cursor.Rewinding
import TripleStore.Proofs.Store.History

/-!
# What a search hands out

A search hands out a cursor. Over any store it is a place in the ascending list
of positions that the pattern has (`search_shows`), whatever is done with it.
The pattern that it reports leads to the same triples once more if the pattern
that was asked for is in reach. Else the cursor has forgotten it and reports the
pattern that covers all (`find_reported_iff`).
-/

namespace TripleStore.Store

variable {s : Store} {calls : List Call}

/-! ## Reading and resetting -/

/-- The positions that a pattern has ascend, and its cursor, however often it is
asked for the next triple and reset in between, shows the place that the same
steps lead to in the list of them. To the pattern that covers all, the bounds on
what is left are exact. -/
theorem search_shows (h : s.Made) (hcalls : Own s.tree calls)
    (pattern : Triple) :
    ∃ positions : List Nat, positions.Pairwise (· < ·) ∧
      (∀ i ∈ positions, i < s.tree.size) ∧
      ((s.afterAll calls).search pattern).drain = positions.map s.tree.entry ∧
      ∀ steps : List Cursor.Step,
        (((s.afterAll calls).search pattern).afterAll steps).Shows
          s.tree positions
          (Cursor.progress positions.length steps) ∧
        (pattern = .any →
          (((s.afterAll calls).search pattern).afterAll steps).sizeHint =
          (positions.length - Cursor.progress positions.length steps,
            some (positions.length - Cursor.progress positions.length
              steps))) := by
  have hindex := sound_prepare (sound_afterAll h.sound hcalls.lists) pattern
  rw [Sound, Keeps, tree_prepare, tree_afterAll] at hindex
  have hconsistent := h.consistent
  have hany : s.tree.order.toCoords .any = .any := by cases s.tree.order <;> rfl
  rw [search, tree_afterAll]
  generalize ((s.afterAll calls).prepare pattern).1.index? = index at hindex ⊢
  generalize hwanted : s.tree.order.toCoords pattern = wanted
  generalize s.tree = t at *
  have hpending : (Cursor.plan t wanted index).pending = _ :=
    Cursor.pending_plan hconsistent hindex
  have hsublist : (Cursor.stops t wanted index).Sublist _ :=
    Cursor.stops_sublist hconsistent hindex
  refine ⟨Cursor.stops t wanted index, List.pairwise_lt_range.sublist hsublist,
    fun i hi => List.mem_range.mp (hsublist.subset hi),
      by rw [Cursor.drain_eq_pending, hpending],
    fun steps => ?_⟩
  have hat :
      ((Cursor.plan t wanted index).afterAll steps).At
        (Cursor.plan t wanted index) _ :=
    Cursor.at_plan hconsistent hindex steps
  refine ⟨Cursor.shows_of_at hconsistent hindex hat, ?_⟩
  rintro rfl
  obtain rfl : wanted = .any := hwanted.symm.trans hany
  have hsize : (Cursor.stops t .any index).length = t.size := by
    rw [Cursor.stops_any hconsistent hindex, List.length_range]
  rw [Cursor.sizeHint_any hconsistent hindex hat, hsize]

theorem search_shows_reset : ∃ s,
    (build .standard [⟨1, 1, 1⟩, ⟨2, 1, 2⟩, ⟨2, 2, 1⟩]).result = .ok s ∧
    ((s.search ⟨2, 0, 0⟩).afterAll [.next, .next, .next, .reset,
      .next]).next.1 = some ⟨2, 2, 1⟩ ∧
    ((s.search ⟨2, 0, 0⟩).afterAll [.next, .next, .next, .reset, .next]).last =
      some 1 := by
  have heval :
      ((build .standard [⟨1, 1, 1⟩, ⟨2, 1, 2⟩, ⟨2, 2, 1⟩]).result >>= fun s =>
      .ok s.tree.size).toOption = some 3 := by decide +kernel
  obtain ⟨s, hbuild, -⟩ := bind_eq_ok.mp (toOption_eq_some.mp heval)
  have htree := (build_eq_ok hbuild).1
  have hmade : s.Made := .built _ _ hbuild
  have hown : Own s.tree [] := fun x hx => by cases hx
  obtain ⟨positions, -, -, hdrain, hshows⟩ := search_shows hmade hown ⟨2, 0, 0⟩
  have hfound :
      (s.search ⟨2, 0, 0⟩).drain =
        [(⟨2, 1, 2⟩, some 1), (⟨2, 2, 1⟩, some 2)] := by
    rw [drain_search hmade.consistent (Tree.ascending_of_build htree).findable
      hmade.sound, entries_of_holds (Tree.holds_of_build htree).2]
    decide
  have hentries :
  positions.map s.tree.entry = [(⟨2, 1, 2⟩, some 1), (⟨2, 2, 1⟩, some 2)] :=
    hdrain.symm.trans hfound
  have hpositions := congrArg (List.map (·.2)) hentries
  rw [List.map_map] at hpositions
  obtain rfl : positions = [1, 2] :=
    List.map_injective_iff.mpr (Option.some_injective Nat) hpositions
  have hentry : s.tree.entry 2 = (⟨2, 2, 1⟩, some 2) :=
    (List.cons.inj (List.cons.inj hentries).2).1
  obtain ⟨hnext, -, hlast, -⟩ := (hshows [.next, .next, .next, .reset, .next]).1
  refine ⟨s, hbuild, hnext.trans ?_, hlast⟩
  show some (s.tree.entry 2).1 = _
  rw [hentry]

/-! ## The pattern that is reported -/

theorem ensureIndex_ensureIndex (s : Store) :
    s.ensureIndex.1.ensureIndex.1 = s.ensureIndex.1 := by
  cases hcell : s.cell with
  | unset =>
      cases hindex : PredicateIndex.build s.tree <;> simp only [ensureIndex,
        hcell, hindex]
  | unavailable => simp only [ensureIndex, hcell]
  | ready x => simp only [ensureIndex, hcell]

/-- A store that was prepared for a pattern stays as it is. -/
theorem prepare_prepare (s : Store) (pattern : Triple) :
    ((s.prepare pattern).1.prepare pattern).1 = (s.prepare pattern).1 := by
  by_cases hbuilds : s.policy ≠ .disabled ∧ s.usesIndex pattern
  · have hprepare : s.prepare pattern = s.ensureIndex := if_pos hbuilds
    have hbuilds' : s.ensureIndex.1.policy ≠ .disabled ∧
        s.ensureIndex.1.usesIndex pattern := by
      rwa [policy_ensureIndex, usesIndex, tree_ensureIndex]
    rw [hprepare, prepare, if_pos hbuilds', ensureIndex_ensureIndex]
  · have hprepare : s.prepare pattern = (s, []) := if_neg hbuilds
    rw [hprepare, hprepare]

/-- A search for the same pattern once more goes the same way. -/
theorem search_after (s : Store) (pattern : Triple) :
    (s.after (.search pattern)).search pattern = s.search pattern := by
  rw [search, after, prepare_prepare, tree_prepare]
  rfl

/-- A cursor reports its pattern if that is in reach, and else the one that
covers all. -/
theorem pattern_search (s : Store) (pattern : Triple) :
    (s.search pattern).pattern =
    if s.tree.outOfReach (s.tree.order.toCoords pattern) then
      .any else pattern := by
  rw [Cursor.pattern, search, Cursor.tree_plan]
  split
  · next hreach =>
      rw [Cursor.plan_of_outOfReach hreach]
      cases s.tree.order <;> rfl
  · next hreach => rw [Cursor.wanted_plan hreach, Order.ofCoords_toCoords]

theorem find_of_outOfReach {pattern : Triple}
    (hreach : s.tree.outOfReach (s.tree.order.toCoords pattern) = true) :
    s.find pattern = [] := by
  rw [find, search, Cursor.plan_of_outOfReach hreach, Cursor.drain_start]
  rfl

variable {config : Config} {triples : List Triple}

/-- Searching for the reported pattern gives the same triples exactly if the
pattern was in reach or there are no triples at all. -/
theorem find_reported_iff (h : (build config triples).result = .ok s)
    (calls : List Call) (pattern : Triple) :
    ((s.afterAll calls).after (.search pattern)).find
      ((s.afterAll calls).search pattern).pattern =
        (s.afterAll calls).find pattern ↔
      s.tree.outOfReach (s.tree.order.toCoords pattern) = false ∨
      triples = [] := by
  have hbuild := (build_eq_ok h).1
  have htriples : (s.afterAll calls).tree.toList = triples := by
    rw [tree_afterAll, (Tree.holds_of_build hbuild).2.toList]
  have hconsistent := Tree.consistent_of_build hbuild
  have htree := tree_afterAll s calls
  generalize s.afterAll calls = s' at htriples htree ⊢
  rw [← htree] at hconsistent ⊢
  rw [pattern_search]
  cases hreach : s'.tree.outOfReach (s'.tree.order.toCoords pattern) with
  | false => simp [find, search_after]
  | true =>
      rw [if_pos rfl, find_of_outOfReach hreach, find_any (by rwa [tree_after]),
        tree_after, htriples]
      simp

theorem find_reported_middle : ∃ s,
    (build .standard [⟨1, 1, 1⟩, ⟨2, 1, 2⟩, ⟨2, 2, 1⟩]).result = .ok s ∧
    (s.after (.search ⟨0, 2, 0⟩)).find (s.search ⟨0, 2, 0⟩).pattern =
      s.find ⟨0, 2, 0⟩ := by
  have heval :
      ((build .standard [⟨1, 1, 1⟩, ⟨2, 1, 2⟩, ⟨2, 2, 1⟩]).result >>= fun s =>
      .ok (s.tree.outOfReach (s.tree.order.toCoords ⟨0, 2, 0⟩))).toOption =
        some false := by
    decide +kernel
  obtain ⟨s, hbuild, hreach⟩ := bind_eq_ok.mp (toOption_eq_some.mp heval)
  exact ⟨s, hbuild, (find_reported_iff hbuild [] _).mpr
    (.inl (Except.ok.inj hreach))⟩

/-- The search for an id that there is not gives nothing, but it reports the
pattern that gives everything. -/
theorem find_reported_forgotten :
    ∃ s, (build .standard [⟨1, 1, 1⟩]).result = .ok s ∧
    s.find ⟨2, 0, 0⟩ = [] ∧ (s.search ⟨2, 0, 0⟩).pattern = ⟨0, 0, 0⟩ ∧
    (s.after (.search ⟨2, 0, 0⟩)).find (s.search ⟨2, 0, 0⟩).pattern =
      [⟨1, 1, 1⟩] := by
  have heval : ((build .standard [⟨1, 1, 1⟩]).result >>= fun s =>
      .ok (s.tree.outOfReach (s.tree.order.toCoords ⟨2, 0, 0⟩))).toOption =
        some true := by
    decide +kernel
  obtain ⟨s, hbuild, hreach⟩ := bind_eq_ok.mp (toOption_eq_some.mp heval)
  have hreach := Except.ok.inj hreach
  have htree := (build_eq_ok hbuild).1
  have hpattern : (s.search ⟨2, 0, 0⟩).pattern = .any := by
    rw [pattern_search, if_pos hreach]
  refine ⟨s, hbuild, find_of_outOfReach hreach, hpattern, ?_⟩
  have hconsistent := Tree.consistent_of_build htree
  rw [hpattern, find_any (by rwa [tree_after]), tree_after,
    (Tree.holds_of_build htree).2.toList]

end TripleStore.Store
