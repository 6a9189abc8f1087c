import TripleStore.Cursor
import TripleStore.Proofs.Adjacency.Spans

/-!
# What a cursor has left

A cursor owes the rest of the run it is in and, for each slot it has not taken,
what it will find at the occurrence the slot names (`pending`). Each step pays
the first of these and leaves the others (`pending_next`), so going on to the
end gives exactly what was owed (`drain_eq_pending`).
-/

namespace TripleStore.Cursor

theorem toList_of_isEmpty {s : Span} (h : s.isEmpty = true) :
    s.toList = [] := by
  rw [Span.isEmpty, decide_eq_true_eq] at h
  rw [Span.toList, Span.size, Nat.sub_eq_zero_of_le h]
  rfl

theorem toList_of_not_isEmpty {s : Span} (h : ¬ s.isEmpty = true) :
    s.toList = s.start :: s.tail.toList := by
  simp only [Span.isEmpty, decide_eq_true_eq, Nat.not_le] at h
  rw [Span.toList, Span.size, Span.toList, Span.size, Span.tail,
    show s.stop - s.start = s.stop - (s.start + 1) + 1 by omega,
    List.range'_succ]

/-! ## What is owed -/

/-- The triple at position `i`, which belongs to an occurrence with these ids. -/
def found (c : Cursor) (major middle : Id) (i : Nat) : Triple × Option Nat :=
  (c.tree.order.ofCoords ⟨major, middle, c.tree.minors.value i⟩, some i)

/-- Position `i` has the minor id that is asked for. -/
def wants (c : Cursor) (i : Nat) : Bool :=
  c.wanted.minor == 0 || c.tree.minors.value i == c.wanted.minor

/-- What a run gives: its triples up to the first that is not wanted. -/
def ofRun (c : Cursor) (major middle : Id) (run : Span) :
    List (Triple × Option Nat) :=
  (run.toList.takeWhile c.wants).map (c.found major middle)

/-- The occurrence has the middle id that is asked for. -/
def admits (c : Cursor) (j : Nat) : Bool :=
  c.wanted.middle == 0 || c.tree.middles.value j == c.wanted.middle

/-- What an occurrence gives. -/
def hits (c : Cursor) (j : Nat) : List (Triple × Option Nat) :=
  if c.admits j then
    c.ofRun (c.tree.middles.key j).toUInt64 (c.tree.middles.value j) (c.runOf j)
  else []

def pending (c : Cursor) : List (Triple × Option Nat) :=
  c.ofRun c.major c.middle c.run ++ c.slots.toList.flatMap fun slot =>
    c.hits (c.occurrence slot)

theorem ofRun_of_isEmpty (c : Cursor) (major middle : Id) {run : Span}
    (h : run.isEmpty = true) :
    c.ofRun major middle run = [] := by
  rw [ofRun, toList_of_isEmpty h]
  rfl

/-! ## Steps -/

/-- A triple that is taken was owed first. -/
theorem pending_take {c c' : Cursor} {t : Triple} (h : c.take = (some t, c')) :
    c.pending = (t, c'.last) :: c'.pending := by
  unfold take at h
  split at h
  · cases h
  next hrun =>
  dsimp only at h
  split at h
  · cases h
  next hminor =>
  have hwants : c.wants c.run.start = true := by
    rw [not_and, not_not] at hminor
    rw [wants, Bool.or_eq_true, beq_iff_eq, beq_iff_eq]
    exact or_iff_not_imp_left.mpr hminor
  have hrun : c.ofRun c.major c.middle c.run =
      c.found c.major c.middle c.run.start :: c.ofRun c.major c.middle
        c.run.tail := by
    rw [ofRun, toList_of_not_isEmpty hrun, List.takeWhile_cons, if_pos hwants]
    rfl
  cases h
  rw [pending, hrun]
  rfl

/-- Where no triple can be taken, the run has nothing left. -/
theorem run_of_take {c c' : Cursor} (h : c.take = (none, c')) :
    c.ofRun c.major c.middle c.run = [] ∧ c' = { c with run := c'.run } ∧
    c'.run.isEmpty = true := by
  unfold take at h
  split at h
  · next hrun =>
      cases h
      exact ⟨ofRun_of_isEmpty _ _ _ hrun, rfl, hrun⟩
  next hrun =>
  dsimp only at h
  split at h
  · next hminor =>
      cases h
      refine ⟨?_, rfl, rfl⟩
      rw [ofRun, toList_of_not_isEmpty hrun, List.takeWhile_cons, if_neg]
      · rfl
      · simp [wants, hminor.1, hminor.2]
  · cases h

/-- Entering a slot turns what it names into the run at hand. -/
theorem pending_enter {c : Cursor} (hrun : c.run.isEmpty = true) :
    c.enter.pending = c.hits (c.occurrence c.slots.start) ++
      c.slots.tail.toList.flatMap fun slot => c.hits (c.occurrence slot) := by
  unfold enter
  dsimp only
  split
  · next hmiddle =>
      have hadmits : c.admits (c.occurrence c.slots.start) = false := by
        simp [admits, hmiddle.1, hmiddle.2]
      rw [hits, hadmits, pending, ofRun_of_isEmpty _ _ _ hrun]
      rfl
  · next hmiddle =>
      have hadmits : c.admits (c.occurrence c.slots.start) = true := by
        rw [not_and, not_not] at hmiddle
        rw [admits, Bool.or_eq_true, beq_iff_eq, beq_iff_eq]
        exact or_iff_not_imp_left.mpr hmiddle
      rw [hits, if_pos hadmits]
      rfl

/-- A step pays the first of what is owed, and gives nothing only if nothing is. -/
theorem pending_next (c : Cursor) :
    match c.next with
    | (some t, c') => c.pending = (t, c'.last) :: c'.pending
    | (none, _) => c.pending = [] := by
  fun_induction next c with
  | case1 c t c' htake => exact pending_take htake
  | case2 c c' htake hslots =>
      obtain ⟨hrun, -, -⟩ := run_of_take htake
      rw [pending, hrun, toList_of_isEmpty hslots]
      rfl
  | case3 c c' htake hslots ih =>
      obtain ⟨hrun, hc', hempty⟩ := run_of_take htake
      have henter : c'.enter.pending = c.pending := by
        have hslots' : c'.slots = c.slots := by rw [hc']
        rw [pending_enter hempty, pending, hrun,
          toList_of_not_isEmpty hslots, hslots', hc']
        rfl
      rw [henter] at ih
      exact ih

theorem drain_eq_pending (c : Cursor) : c.drain = c.pending := by
  fun_induction drain c with
  | case1 c t c' hnext ih =>
      have h := pending_next c
      rw [hnext] at h
      rw [h, ih]
  | case2 c c' hnext =>
      have h := pending_next c
      rw [hnext] at h
      exact h.symm

/-- A first triple is found if there are any. -/
theorem isSome_next (c : Cursor) : c.next.1.isSome = !c.pending.isEmpty := by
  have h := pending_next c
  rcases hnext : c.next with ⟨_ | t, c'⟩
  · rw [hnext] at h
    simp [h]
  · rw [hnext] at h
    simp [h]

/-- From its start a cursor goes through its slots. -/
theorem drain_start (tree : Tree) (wanted : Coords) (strategy : Strategy)
    (index : Option PredicateIndex) (slots : Span) :
    (start tree wanted strategy index slots).drain =
      slots.toList.flatMap fun slot =>
        (start tree wanted strategy index slots).hits
        ((start tree wanted strategy index slots).occurrence slot) := by
  rw [drain_eq_pending, pending, ofRun_of_isEmpty _ _ _ rfl]
  rfl

end TripleStore.Cursor
