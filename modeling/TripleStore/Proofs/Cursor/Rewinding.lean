import Mathlib.Data.List.Flatten
import TripleStore.Proofs.Cursor.Losses

/-!
# Going on and going back

To whoever goes on with a cursor and resets it, in any order, the cursor is a
place in a fixed list, the one that its plan gives: going on moves the place by
one until the end is reached, and resetting puts it back to the front
(`progress`). What a cursor keeps is enough to tell the place (`At`), and every
step keeps it that way (`at_after`), although resetting brings back only some of
the fields. The list is made of the positions where the cursor stops, which
ascend (`stops_sublist`).
-/

namespace TripleStore.Cursor

/-! ## Steps -/

/-- What moves a cursor. -/
inductive Step where
  | next
  | reset

def after (c : Cursor) : Step → Cursor
  | .next => c.next.2
  | .reset => c.reset

def afterAll (c : Cursor) (steps : List Step) : Cursor := steps.foldl after c

/-- How many of `n` elements have been read after a step, if `k` had been before
it. -/
def advance (n k : Nat) : Step → Nat
  | .next => min (k + 1) n
  | .reset => 0

/-- How many of `n` elements have been read since the last reset, at the end of
all steps. -/
def progress (n : Nat) (steps : List Step) : Nat := steps.foldl (advance n) 0

/-! ## What steps leave alone -/

/-- The cursor as it was planned. -/
def planned (c : Cursor) : Cursor :=
  start c.tree c.wanted c.strategy c.index c.initial

theorem planned_take (c : Cursor) : c.take.2.planned = c.planned := by
  unfold take
  split
  · rfl
  · dsimp only
    split <;> rfl

theorem planned_enter (c : Cursor) : c.enter.planned = c.planned := by
  unfold enter
  dsimp only
  split <;> rfl

theorem planned_next (c : Cursor) : c.next.2.planned = c.planned := by
  fun_induction next c with
  | case1 c t c' htake => rw [← planned_take c, htake]
  | case2 c c' htake hslots => rw [← planned_take c, htake]
  | case3 c c' htake hslots ih =>
    rw [ih, planned_enter, ← planned_take c, htake]

theorem planned_plan (t : Tree) (wanted : Coords)
    (index : Option PredicateIndex) :
    (plan t wanted index).planned = plan t wanted index := by
  unfold plan
  split
  · rfl
  split
  · dsimp only
    split
    · rfl
    · split <;> rfl
  split
  · cases index <;> rfl
  · rfl

/-- The ids that a reset cursor keeps belong to an empty run, so what it owes
does not depend on them. -/
theorem pending_reset (c : Cursor) : c.reset.pending = c.planned.pending := by
  rw [pending, pending, ofRun_of_isEmpty _ _ _ rfl, ofRun_of_isEmpty _ _ _ rfl]
  rfl

theorem last_enter (c : Cursor) : c.enter.last = c.last := by
  unfold enter
  dsimp only
  split <;> rfl

/-- At the end a step leaves nothing to come, and the last position as it was. -/
theorem next_none {c c' : Cursor} (h : c.next = (none, c')) :
    c'.pending = [] ∧ c'.last = c.last := by
  fun_induction next c with
  | case1 c t d htake => cases h
  | case2 c d htake hslots =>
      cases h
      obtain ⟨-, hd, hrun⟩ := run_of_take htake
      have hslots' : c'.slots = c.slots := by rw [hd]
      refine ⟨?_, by rw [hd]⟩
      rw [pending, ofRun_of_isEmpty _ _ _ hrun, hslots',
        toList_of_isEmpty hslots]
      rfl
  | case3 c d htake hslots ih =>
      obtain ⟨-, hd, -⟩ := run_of_take htake
      have hlast : d.last = c.last := by rw [hd]
      obtain ⟨hpending, hc'⟩ := ih h
      exact ⟨hpending, by rw [hc', last_enter, hlast]⟩

/-! ## Places in a list -/

/-- The cursor stands behind the first `k` elements of what `c₀` gives, and was
planned as `c₀`. -/
structure At (c c₀ : Cursor) (k : Nat) : Prop where
  planned : c.planned = c₀
  le : k ≤ c₀.pending.length
  pending : c.pending = c₀.pending.drop k
  last : c.last = (c₀.pending.take k).getLast?.bind (·.2)

variable {c₀ c : Cursor} {k : Nat}

theorem at_planned (c : Cursor) : c.planned.At c.planned 0 where
  planned := rfl
  le := Nat.zero_le _
  pending := rfl
  last := rfl

theorem at_reset (h : c.At c₀ k) : c.reset.At c₀ 0 where
  planned := h.planned
  le := Nat.zero_le _
  pending := by rw [pending_reset, h.planned, List.drop_zero]
  last := rfl

theorem at_next (h : c.At c₀ k) :
    c.next.2.At c₀ (min (k + 1) c₀.pending.length) := by
  have hplanned := planned_next c
  have hnext := pending_next c
  rcases hc : c.next with ⟨_ | t, c'⟩
  · -- nothing was left, so all has been read already
    rw [hc] at hplanned hnext
    obtain ⟨hpending, hlast⟩ := next_none hc
    have hend : c₀.pending.length ≤ k := by
      rw [← List.drop_eq_nil_iff, ← h.pending]
      exact hnext
    obtain rfl : k = c₀.pending.length := Nat.le_antisymm h.le hend
    rw [Nat.min_eq_right (Nat.le_succ _)]
    refine ⟨hplanned.trans h.planned, Nat.le_refl _, ?_, hlast.trans h.last⟩
    rw [hpending, List.drop_length]
  · -- the first of what was left is read
    rw [hc] at hplanned hnext
    dsimp only at hplanned hnext ⊢
    rw [h.pending] at hnext
    have hk : k < c₀.pending.length := by
      by_contra hk
      rw [List.drop_eq_nil_iff.mpr (Nat.le_of_not_lt hk)] at hnext
      cases hnext
    rw [List.drop_eq_getElem_cons hk, List.cons.injEq] at hnext
    obtain ⟨hhead, htail⟩ := hnext
    rw [Nat.min_eq_left hk]
    refine ⟨hplanned.trans h.planned, hk, htail.symm, ?_⟩
    rw [List.take_succ_eq_append_getElem hk, List.getLast?_concat, hhead]
    rfl

/-- A step moves the place as it moves a place in a list. -/
theorem at_after (h : c.At c₀ k) (step : Step) :
    (c.after step).At c₀ (advance c₀.pending.length k step) := by
  cases step with
  | next => exact at_next h
  | reset => exact at_reset h

theorem at_foldl (h : c.At c₀ k) (steps : List Step) :
    (c.afterAll steps).At c₀ (steps.foldl (advance c₀.pending.length) k) := by
  induction steps generalizing c k with
  | nil => exact h
  | cons step steps ih => exact ih (at_after h step)

/-- So does any run of steps from the cursor as it was planned. -/
theorem at_afterAll (c : Cursor) (steps : List Step) :
    (c.planned.afterAll steps).At c.planned
      (progress c.planned.pending.length steps) :=
  at_foldl (at_planned c) steps

theorem At.strategy (h : c.At c₀ k) : c.strategy = c₀.strategy := by
  rw [← h.planned]
  rfl

theorem At.wanted (h : c.At c₀ k) : c.wanted = c₀.wanted := by
  rw [← h.planned]
  rfl

theorem At.tree (h : c.At c₀ k) : c.tree = c₀.tree := by
  rw [← h.planned]
  rfl

/-- What is given next is the first element that has not been read. -/
theorem At.next (h : c.At c₀ k) : c.next.1 = (c₀.pending[k]?).map (·.1) := by
  have hnext := pending_next c
  rw [← List.head?_drop, ← h.pending]
  rcases hc : c.next with ⟨_ | t, c'⟩
  · rw [hc] at hnext
    rw [hnext]
    rfl
  · rw [hc] at hnext
    rw [hnext]
    rfl

/-! ## Where a cursor stops -/

section Stops

variable {t : Tree} {wanted : Coords} {index : Option PredicateIndex}

/-- A walk never goes back. -/
theorem pairwise_walk (hindex : ∀ x ∈ index, x.Lists t) :
    (walk t wanted index).Pairwise (· < ·) := by
  unfold walk
  split
  · exact List.Pairwise.nil
  next hreach =>
  split
  · dsimp only
    split
    · exact Span.pairwise_toList _
    · cases t.middles.find? (t.middles.keySpan wanted.major.toNat)
        wanted.middle <;> simp
  split
  · next hmiddle =>
      cases index with
      | none => exact List.pairwise_lt_range
      | some x =>
          have hlists := hindex x rfl _ (toNat_pos hmiddle)
            (not_outOfReach_iff.mp hreach).2.1
          rw [PredicateIndex.listed] at hlists
          dsimp only
          rw [hlists]
          exact Tree.pairwise_occurrencesOf t _
  · exact List.pairwise_lt_range

/-- The positions at which a plan stops. -/
def stops (t : Tree) (wanted : Coords) (index : Option PredicateIndex) :
    List Nat :=
  (walk t wanted index).flatMap (places t wanted)

theorem pending_plan (h : t.Consistent) (hindex : ∀ x ∈ index, x.Lists t) :
    (plan t wanted index).pending = (stops t wanted index).map t.entry := by
  rw [← drain_eq_pending, drain_plan h (walk_lt_of_lists hindex)]
  rfl

/-- Any steps from a plan lead to a place in the list of its positions. -/
theorem at_plan (h : t.Consistent) (hindex : ∀ x ∈ index, x.Lists t)
    (steps : List Step) :
    ((plan t wanted index).afterAll steps).At (plan t wanted index)
      (progress (stops t wanted index).length steps) := by
  have hat := at_afterAll (plan t wanted index) steps
  rwa [planned_plan, pending_plan h hindex, List.length_map] at hat

theorem places_sublist_run (h : t.Consistent) {j : Nat}
    (hj : j < t.middles.size) :
    (places t wanted j).Sublist (t.run j).toList := by
  have hpairwise : (places t wanted j).Pairwise (· < ·) := by
    unfold places
    dsimp only
    split
    · exact (Span.pairwise_toList _).sublist (List.takeWhile_sublist _)
    · exact List.Pairwise.nil
  exact sublist_of_ascending hpairwise (Span.pairwise_toList _) fun i hi =>
    places_subset h hj hi

/-- A plan stops at positions that ascend. -/
theorem stops_sublist (h : t.Consistent) (hindex : ∀ x ∈ index, x.Lists t) :
    (stops t wanted index).Sublist (List.range t.size) := by
  have hlt : ∀ j ∈ walk t wanted index, j < t.middles.size :=
    walk_lt_of_lists hindex
  have hwalk : (walk t wanted index).Sublist (List.range t.middles.size) :=
    sublist_of_ascending (pairwise_walk hindex) List.pairwise_lt_range
      fun j hj =>
        List.mem_range.mpr (hlt j hj)
  rw [← Tree.flatMap_run h]
  have hstops : (stops t wanted index).Sublist
      ((walk t wanted index).flatMap fun j => (t.run j).toList) :=
    List.Sublist.flatMap_right _ fun j hj => places_sublist_run h (hlt j hj)
  exact hstops.trans (hwalk.flatMap _)

/-- The pattern that covers all stops everywhere. -/
theorem stops_any (h : t.Consistent) (hindex : ∀ x ∈ index, x.Lists t) :
    stops t .any index = List.range t.size := by
  apply (stops_sublist h hindex).eq_of_length
  rw [← List.length_map (f := t.entry), ← pending_plan h hindex,
    ← drain_eq_pending, drain_plan_any h, Tree.entries, List.length_map]

/-! ## Bounds on what is left -/

theorem tree_plan (t : Tree) (wanted : Coords) (index : Option PredicateIndex) :
    (plan t wanted index).tree = t := by
  unfold plan
  split
  · rfl
  split
  · dsimp only
    split
    · rfl
    · split <;> rfl
  split
  · cases index <;> rfl
  · rfl

theorem plan_of_outOfReach (h : t.outOfReach wanted = true) :
    plan t wanted index = start t .any .empty none .empty := if_pos h

/-- Within reach a plan looks for what it was asked for. -/
theorem wanted_plan (h : ¬ t.outOfReach wanted = true) :
    (plan t wanted index).wanted = wanted := by
  unfold plan
  rw [if_neg h]
  split
  · dsimp only
    split
    · rfl
    · split <;> rfl
  split
  · cases index <;> rfl
  · rfl

/-- A plan that is known to be empty gives nothing. -/
theorem pending_of_strategy :
    (plan t wanted index).strategy = .empty →
    (plan t wanted index).pending = [] := by
  unfold plan
  split
  · exact fun _ => rfl
  split
  · dsimp only
    split
    · exact Strategy.noConfusion
    · split
      · exact Strategy.noConfusion
      · exact fun _ => rfl
  split
  · cases index <;> exact Strategy.noConfusion
  · exact Strategy.noConfusion

/-- The last of the first `k` numbers is one less than `k`. -/
theorem elim_getLast?_range {n k : Nat} (hk : k ≤ n) :
    ((List.range n).take k).getLast?.elim 0 (· + 1) = k := by
  rw [List.take_range, Nat.min_eq_left hk, List.getLast?_range]
  cases k with
  | zero => rfl
  | succ k => rfl

variable {c : Cursor} {k : Nat}

theorem last_of_at (h : t.Consistent) (hindex : ∀ x ∈ index, x.Lists t)
    (hat : c.At (plan t wanted index) k) :
    c.last = ((stops t wanted index).take k).getLast? := by
  rw [hat.last, pending_plan h hindex, ← List.map_take, List.getLast?_map,
    Option.bind_map]
  exact Option.bind_fun_some _

/-- To the pattern that covers all, the bounds are exact. -/
theorem sizeHint_any (h : t.Consistent) (hindex : ∀ x ∈ index, x.Lists t)
    (hat : c.At (plan t .any index) k) :
    c.sizeHint = (t.size - k, some (t.size - k)) := by
  have hplan :
      plan t .any index = start t .any .scan none ⟨0, t.middles.size⟩ := by
    unfold plan
    rw [if_neg (by simp [Tree.outOfReach, Coords.any])]
    rfl
  have hk : k ≤ t.size := by
    have hle := hat.le
    rwa [pending_plan h hindex, List.length_map, stops_any h hindex,
      List.length_range] at hle
  have hlast := last_of_at h hindex hat
  rw [stops_any h hindex] at hlast
  rw [hplan] at hat
  have hwanted : c.wanted = .any := hat.wanted
  rw [sizeHint, if_neg (by rw [hat.strategy]; exact Strategy.noConfusion),
    if_pos hwanted, hlast, elim_getLast?_range hk, hat.tree]
  rfl

/-- What can be seen of a cursor over a list of positions of a tree, of which
`k` have been read. -/
structure Shows (c : Cursor) (t : Tree) (positions : List Nat) (k : Nat) :
    Prop where
  next : c.next.1 = (positions[k]?).map fun i => (t.entry i).1
  rest : c.drain = (positions.drop k).map t.entry
  last : c.last = (positions.take k).getLast?
  least : c.sizeHint.1 ≤ positions.length - k
  most : ∀ n ∈ c.sizeHint.2, positions.length - k ≤ n
  /-- What is taken off the number of triples to tell how many are left. -/
  done : c.last.elim 0 (· + 1) ≤ t.size

theorem sizeHint_of_at (h : t.Consistent) (hindex : ∀ x ∈ index, x.Lists t)
    (hat : c.At (plan t wanted index) k) :
    c.sizeHint.1 ≤ (stops t wanted index).length - k ∧
      ∀ n ∈ c.sizeHint.2, (stops t wanted index).length - k ≤ n := by
  by_cases hempty : (plan t wanted index).strategy = .empty
  · have hnil := pending_of_strategy hempty
    rw [pending_plan h hindex, List.map_eq_nil_iff] at hnil
    rw [sizeHint, if_pos (hat.strategy.trans hempty), hnil]
    refine ⟨Nat.zero_le _, fun n _ => ?_⟩
    rw [List.length_nil, Nat.zero_sub]
    exact Nat.zero_le n
  · have hreach : ¬ t.outOfReach wanted = true :=
      fun hreach => hempty
        (congrArg Cursor.strategy (plan_of_outOfReach hreach))
    by_cases hany : wanted = .any
    · subst hany
      rw [sizeHint_any h hindex hat, stops_any h hindex, List.length_range]
      refine ⟨Nat.le_refl _, fun n hn => ?_⟩
      obtain rfl := Option.some.inj hn
      exact Nat.le_refl _
    · -- all triples are at least as many as are left
      rw [sizeHint, if_neg (by rwa [hat.strategy]),
        if_neg (by rwa [hat.wanted, wanted_plan hreach]), hat.tree,
        tree_plan]
      refine ⟨Nat.zero_le _, fun n hn => ?_⟩
      obtain rfl := Option.some.inj hn
      have hlength :
          (stops t wanted index).length ≤ (List.range t.size).length :=
        (stops_sublist h hindex).length_le
      rw [List.length_range] at hlength
      exact Nat.le_trans (Nat.sub_le _ _) hlength

theorem shows_of_at (h : t.Consistent) (hindex : ∀ x ∈ index, x.Lists t)
    (hat : c.At (plan t wanted index) k) :
    c.Shows t (stops t wanted index) k where
  next := by
    rw [hat.next, pending_plan h hindex, List.getElem?_map, Option.map_map]
    rfl
  rest := by
    rw [drain_eq_pending, hat.pending, pending_plan h hindex, List.map_drop]
  last := last_of_at h hindex hat
  least := (sizeHint_of_at h hindex hat).1
  most := (sizeHint_of_at h hindex hat).2
  done := by
    rw [last_of_at h hindex hat]
    cases hlast : ((stops t wanted index).take k).getLast? with
    | none => exact Nat.zero_le _
    | some i =>
        have hi := List.mem_of_mem_take (List.mem_of_getLast? hlast)
        exact List.mem_range.mp ((stops_sublist h hindex).subset hi)

end Stops

end TripleStore.Cursor
