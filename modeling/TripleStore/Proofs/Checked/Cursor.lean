import TripleStore.Proofs.Checked.Adjacency
import TripleStore.Proofs.PredicateIndex.Compatible

/-!
# Cursors with every access checked

Planning a cursor and going on with it once more, in steps that give nothing
where a key, a slot or a position is asked for that there is not. That a cursor
comes to its end is said by the relations `Next` and `Drains`, which hold of
finite runs of such steps alone. A cursor that stands inside its tree (`Within`)
stays inside it, so all its steps can be gone and it comes to its end
(`drains_drain`).
-/

namespace TripleStore

structure Tree.Fits (t : Tree) : Prop where
  middles : t.middles.Fits
  minors : t.minors.Fits

def PredicateIndex.Fits (x : PredicateIndex) : Prop := x.positions.Fits

namespace Checked

/-! ## Triples -/

def coords (t : Tree) (i : Nat) : Option Coords := do
  let j := (← key t.minors i) - 1
  return ⟨(← key t.middles j).toUInt64, ← value t.middles j, ← value t.minors i⟩

def tripleAt (t : Tree) (i : Nat) : Option (Except Error Triple) :=
  if i < t.size then do return .ok (t.order.ofCoords (← coords t i))
  else some (.error (.outOfRange i t.size))

/-! ## Planning -/

def slots (x : PredicateIndex) (p : Nat) : Option Span := keySpan x.positions p

def slotValue (x : PredicateIndex) (slot : Nat) : Option Nat :=
  (value x.positions slot).map (·.toNat)

def plan (tree : Tree) (wanted : Coords) (index : Option PredicateIndex) :
    Option Cursor :=
  if tree.outOfReach wanted then
    some (.start tree .any .empty none .empty)
  else if wanted.major ≠ 0 then do
    let occurrences ← keySpan tree.middles wanted.major.toNat
    if wanted.middle = 0 then return .start tree wanted .major none occurrences
    else match ← find tree.middles occurrences wanted.middle with
      | some i => return .start tree wanted .majorMiddle none ⟨i, i + 1⟩
      | none => return .start tree wanted .empty none .empty
  else if wanted.middle ≠ 0 then
    match index with
    | some x => do
      return .start tree wanted .predicateIndex (some x)
        (← slots x wanted.middle.toNat)
    | none => some (.start tree wanted .scan none ⟨0, tree.middles.size⟩)
  else some (.start tree wanted .scan none ⟨0, tree.middles.size⟩)

/-! ## Going on -/

def occurrence (c : Cursor) (slot : Nat) : Option Nat :=
  match c.index with
  | some x => slotValue x slot
  | none => some slot

def runOf (c : Cursor) (j : Nat) : Option Span := do
  let run ← keySpan c.tree.minors (j + 1)
  if c.wanted.minor = 0 then return run
  else return ⟨← lowerBound c.tree.minors run.start run.stop c.wanted.minor,
    run.stop⟩

def enter (c : Cursor) : Option Cursor := do
  let j ← occurrence c c.slots.start
  let middle ← value c.tree.middles j
  if c.wanted.middle ≠ 0 ∧ middle ≠ c.wanted.middle then
    return { c with slots := c.slots.tail }
  else
    let run ← runOf c j
    let major ← key c.tree.middles j
    return { c with slots := c.slots.tail, run, major :=
      major.toUInt64, middle }

def take (c : Cursor) : Option (Option Triple × Cursor) :=
  if c.run.isEmpty then some (none, c)
  else do
    let minor ← value c.tree.minors c.run.start
    if c.wanted.minor ≠ 0 ∧ minor ≠ c.wanted.minor then
      return (none, { c with run := .empty })
    else
      return (some (c.tree.order.ofCoords ⟨c.major, c.middle, minor⟩),
        { c with run := c.run.tail, last := some c.run.start })

/-- What a cursor gives next, after finitely many steps. -/
inductive Next : Cursor → Option Triple × Cursor → Prop where
  | found {c c' : Cursor} {t : Triple} (h : take c = some (some t, c')) :
    Next c (some t, c')
  | stop {c c' : Cursor} (h : take c = some (none, c'))
    (hend : c.slots.isEmpty = true) :
    Next c (none, c')
  | skip {c c' d : Cursor} {r : Option Triple × Cursor}
    (h : take c = some (none, c')) (hslots : ¬ c.slots.isEmpty = true)
    (henter : enter c' = some d) (hnext : Next d r) : Next c r

/-- What a cursor gives until it comes to its end. -/
inductive Drains : Cursor → List (Triple × Option Nat) → Prop where
  | done {c c' : Cursor} (h : Next c (none, c')) : Drains c []
  | more {c c' : Cursor} {t : Triple} {l : List (Triple × Option Nat)}
    (h : Next c (some t, c')) (hl : Drains c' l) : Drains c ((t, c'.last) :: l)

end Checked

/-! ## Cursors inside their tree -/

/-- The slots and the run that are left lead to positions that there are. -/
structure Cursor.Within (c : Cursor) : Prop where
  consistent : c.tree.Consistent
  fits : c.tree.Fits
  index : ∀ x ∈ c.index, x.Fits ∧ ∀ slot ∈ c.slots.toList, slot < x.size
  slots : ∀ slot ∈ c.slots.toList, c.occurrence slot < c.tree.middles.size
  run : ∀ i ∈ c.run.toList, i < c.tree.size

namespace Checked

variable {c : Cursor} {t : Tree} {wanted : Coords}
  {index : Option PredicateIndex}

/-- Every triple belongs to an occurrence that there is. -/
theorem coords_eq (ht : t.Consistent) (hfits : t.Fits) {i : Nat}
    (hi : i < t.size) :
    coords t i = some (t.coords i) := by
  have hj : t.minors.key i - 1 < t.middles.size := by
    have hpos := t.minors.key_pos i
    have hle := Adjacency.key_le hi
    rw [ht.groups] at hle
    omega
  rw [coords, key_eq hfits.minors hi]
  dsimp only [Option.bind_eq_bind, Option.bind_some]
  rw [key_eq hfits.middles hj, value_eq hfits.middles hj,
    value_eq hfits.minors hi]
  rfl

theorem tripleAt_eq (ht : t.Consistent) (hfits : t.Fits) (i : Nat) :
    tripleAt t i = some (t.tripleAt i) := by
  unfold tripleAt Tree.tripleAt
  split
  · next hi =>
      rw [coords_eq ht hfits hi]
      rfl
  · rfl

theorem within_start (ht : t.Consistent) (hfits : t.Fits) (strategy : Strategy)
    {span : Span}
    (hindex : ∀ x ∈ index, x.Fits ∧ ∀ slot ∈ span.toList, slot < x.size)
    (hslots : ∀ slot ∈ span.toList,
      (Cursor.start t wanted strategy index span).occurrence slot <
        t.middles.size) :
    (Cursor.start t wanted strategy index span).Within where
  consistent := ht
  fits := hfits
  index := hindex
  slots := hslots
  run := by
    intro i hi
    cases hi

/-- Without an index slots are occurrences themselves. -/
theorem within_start_none (ht : t.Consistent) (hfits : t.Fits)
    (strategy : Strategy) {span : Span}
    (hslots : ∀ j ∈ span.toList, j < t.middles.size) :
    (Cursor.start t wanted strategy none span).Within :=
  within_start ht hfits strategy (fun x hx => by cases hx) hslots

/-- The index of a tree leads from every slot of an id to one of its
occurrences. -/
theorem within_start_index {x : PredicateIndex} (ht : t.Consistent)
    (hfits : t.Fits) (hx : x.Fits) (hconflict : x.conflict? t = none) {p : Nat}
    (hpos : 0 < p) (hp : p ≤ t.maxMiddle.toNat) :
    (Cursor.start t wanted .predicateIndex (some x) (x.slots p)).Within := by
  obtain ⟨hpredicates, -, hvalues⟩ :=
    PredicateIndex.conflict?_eq_none_iff.mp hconflict
  rw [← hpredicates] at hp
  have hslots : ∀ slot ∈ (x.slots p).toList, slot < x.size :=
    fun slot => Cursor.keySpan_lt hpos hp
  refine within_start ht hfits _ ?_ fun slot hslot =>
    (hvalues slot (hslots slot hslot)).1
  rintro _ ⟨⟩
  exact ⟨hx, hslots⟩

/-- Every check of a plan holds, and the cursor that is planned stands inside
its tree. -/
theorem plan_eq (ht : t.Consistent) (hfits : t.Fits)
    (hindex : ∀ x ∈ index, x.Fits ∧ x.conflict? t = none) :
    plan t wanted index = some (Cursor.plan t wanted index) ∧
      (Cursor.plan t wanted index).Within := by
  have hempty : ∀ strategy w, (Cursor.start t w strategy none .empty).Within :=
    fun strategy w => within_start_none ht hfits strategy
      (fun j hj => by cases hj)
  have hscan : (Cursor.start t wanted .scan none ⟨0, t.middles.size⟩).Within :=
    within_start_none ht hfits _ fun j => Cursor.mem_range_toList
  unfold plan Cursor.plan
  split
  · exact ⟨rfl, hempty _ _⟩
  next hreach =>
  obtain ⟨hmajors, hmiddles, -⟩ := Cursor.not_outOfReach_iff.mp hreach
  split
  · next hmajor =>
      have hpos := Cursor.toNat_pos hmajor
      rw [keySpan_eq hfits.middles hpos hmajors]
      dsimp only [Option.bind_eq_bind, Option.bind_some]
      split
      · exact ⟨rfl, within_start_none ht hfits _ fun j =>
          Cursor.keySpan_lt hpos hmajors⟩
      · obtain ⟨k, hk⟩ := Nat.exists_eq_add_one.mpr hpos
        rw [hk] at hmajors ⊢
        rw [find_eq hfits.middles (Adjacency.keySpan_stop_le hmajors)]
        dsimp only [Option.bind_eq_bind, Option.bind_some]
        cases hfind : t.middles.find? (t.middles.keySpan (k + 1))
          wanted.middle with
        | none => exact ⟨rfl, hempty _ _⟩
        | some i =>
            refine ⟨rfl, within_start_none ht hfits _ fun j hj => ?_⟩
            rw [Cursor.toList_singleton, List.mem_singleton] at hj
            exact hj ▸ (Adjacency.find?_eq_some hmajors hfind).1
  split
  · next hmiddle =>
      cases index with
      | none => exact ⟨rfl, hscan⟩
      | some x =>
          obtain ⟨hx, hconflict⟩ := hindex x rfl
          have hpos := Cursor.toNat_pos hmiddle
          refine ⟨?_, within_start_index ht hfits hx hconflict hpos hmiddles⟩
          rw [← (PredicateIndex.conflict?_eq_none_iff.mp
            hconflict).1] at hmiddles
          have hslots :
              slots x wanted.middle.toNat =
                some (x.slots wanted.middle.toNat) :=
            keySpan_eq hx hpos hmiddles
          dsimp only
          rw [hslots]
          rfl
  · exact ⟨rfl, hscan⟩

/-! ## Steps -/

theorem runOf_eq (h : c.Within) {j : Nat} (hj : j < c.tree.middles.size) :
    runOf c j = some (c.runOf j) := by
  rw [← h.consistent.groups] at hj
  rw [runOf, keySpan_eq h.fits.minors (Nat.succ_pos j) hj, Cursor.runOf]
  dsimp only [Option.bind_eq_bind, Option.bind_some]
  split
  · rfl
  · rw [lowerBound_eq h.fits.minors _ (Adjacency.keySpan_stop_le hj)]
    rfl

theorem occurrence_eq (h : c.Within) (hslots : ¬ c.slots.isEmpty = true) :
    occurrence c c.slots.start = some (c.occurrence c.slots.start) := by
  have hfirst : c.slots.start ∈ c.slots.toList := by
    rw [Cursor.toList_of_not_isEmpty hslots]
    exact List.mem_cons_self
  unfold occurrence Cursor.occurrence
  cases hx : c.index with
  | none => rfl
  | some x =>
      obtain ⟨hfits, hlt⟩ := h.index x hx
      dsimp only
      rw [slotValue, value_eq hfits (hlt _ hfirst)]
      rfl

/-- Entering a slot that is left keeps a cursor inside its tree. -/
theorem enter_eq (h : c.Within) (hslots : ¬ c.slots.isEmpty = true) :
    enter c = some c.enter ∧ c.enter.Within := by
  have hlist := Cursor.toList_of_not_isEmpty hslots
  have htail : ∀ {slot}, slot ∈ c.slots.tail.toList → slot ∈ c.slots.toList :=
    fun hslot =>
      hlist ▸ List.mem_cons_of_mem _ hslot
  have hj : c.occurrence c.slots.start < c.tree.middles.size :=
    h.slots _ (hlist ▸ List.mem_cons_self)
  have hindex : ∀ x ∈ c.index, x.Fits ∧
      ∀ slot ∈ c.slots.tail.toList, slot < x.size :=
    fun x hx => ⟨(h.index x hx).1, fun slot hslot =>
      (h.index x hx).2 slot (htail hslot)⟩
  rw [enter, occurrence_eq h hslots, Cursor.enter]
  dsimp only [Option.bind_eq_bind, Option.bind_some]
  rw [value_eq h.fits.middles hj]
  dsimp only [Option.bind_eq_bind, Option.bind_some]
  split
  · exact ⟨rfl, h.consistent, h.fits, hindex,
      fun slot hslot => h.slots slot (htail hslot), h.run⟩
  · rw [runOf_eq h hj, key_eq h.fits.middles hj]
    refine ⟨rfl, h.consistent, h.fits, hindex,
      fun slot hslot => h.slots slot (htail hslot), ?_⟩
    exact fun i hi => Tree.lt_of_mem_run h.consistent hj
      (Cursor.runOf_subset h.consistent hj hi)

/-- Taking a triple of the run keeps a cursor inside its tree. -/
theorem take_eq (h : c.Within) {r : Option Triple × Cursor}
    (htake : c.take = r) :
    take c = some r ∧ r.2.Within := by
  subst htake
  unfold take Cursor.take
  split
  · exact ⟨rfl, h⟩
  next hrun =>
  have hlist := Cursor.toList_of_not_isEmpty hrun
  have hfirst : c.run.start < c.tree.minors.size :=
    h.run _ (hlist ▸ List.mem_cons_self)
  rw [value_eq h.fits.minors hfirst]
  dsimp only [Option.bind_eq_bind, Option.bind_some]
  split
  · refine ⟨rfl, h.consistent, h.fits, h.index, h.slots, ?_⟩
    intro i hi
    cases hi
  · refine ⟨rfl, h.consistent, h.fits, h.index, h.slots, ?_⟩
    exact fun i hi => h.run i (hlist ▸ List.mem_cons_of_mem _ hi)

/-! ## Runs -/

/-- A cursor inside its tree finds the next triple in finitely many steps, and
stays inside. -/
theorem next_next (h : c.Within) : Next c c.next ∧ c.next.2.Within := by
  fun_induction Cursor.next c with
  | case1 c t c' htake =>
      obtain ⟨hchecked, hwithin⟩ := take_eq h htake
      exact ⟨.found hchecked, hwithin⟩
  | case2 c c' htake hslots =>
      obtain ⟨hchecked, hwithin⟩ := take_eq h htake
      exact ⟨.stop hchecked hslots, hwithin⟩
  | case3 c c' htake hslots ih =>
      obtain ⟨hchecked, hwithin⟩ := take_eq h htake
      have hleft : ¬ c'.slots.isEmpty = true := by
        have heq : c'.slots = c.slots := by rw [← Cursor.slots_take c, htake]
        rwa [heq]
      obtain ⟨henter, hwithin⟩ := enter_eq hwithin hleft
      obtain ⟨hnext, hwithin⟩ := ih hwithin
      exact ⟨.skip hchecked hslots henter hnext, hwithin⟩

/-- A cursor inside its tree comes to its end. -/
theorem drains_drain (h : c.Within) : Drains c c.drain := by
  fun_induction Cursor.drain c with
  | case1 c t c' hnext ih =>
      obtain ⟨hchecked, hwithin⟩ := next_next h
      rw [hnext] at hchecked hwithin
      exact .more hchecked (ih hwithin)
  | case2 c c' hnext =>
      obtain ⟨hchecked, -⟩ := next_next h
      rw [hnext] at hchecked
      exact .done hchecked

end Checked

end TripleStore
