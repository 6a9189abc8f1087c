import TripleStore.PredicateIndex.Basic

/-!
# Cursors

A cursor goes through the triples of a tree that match a pattern, in layout
order. It walks slots, each of which names an occurrence of a middle id, either
directly or through a predicate index. An occurrence has a run of minor ids, one
triple each. How it was planned decides which slots it walks; what the plan does
not settle is filtered.
-/

namespace TripleStore

inductive Strategy where
  | empty
  /-- The major id is bound: its occurrences. -/
  | major
  /-- The major and middle id are bound: one occurrence. -/
  | majorMiddle
  /-- The middle id is bound and the major is not: its entries in the index. -/
  | predicateIndex
  /-- All occurrences. -/
  | scan
deriving DecidableEq

def Strategy.name : Strategy → String
  | empty => "Empty"
  | major => "Major"
  | majorMiddle => "MajorMiddle"
  | predicateIndex => "PredicateIndex"
  | scan => "Scan"

structure Cursor where
  tree : Tree
  wanted : Coords
  strategy : Strategy
  /-- The index that slots go through. -/
  index : Option PredicateIndex
  /-- The slots of the whole search. -/
  initial : Span
  slots : Span
  /-- The triples left of the occurrence at hand, whose ids are `major` and
  `middle`. -/
  run : Span
  major : Id
  middle : Id
  last : Option Nat

namespace Cursor

/-! ## Planning -/

def start (tree : Tree) (wanted : Coords) (strategy : Strategy)
    (index : Option PredicateIndex) (slots : Span) : Cursor :=
  { tree, wanted, strategy, index, slots
    initial := slots
    run := .empty
    major := 0
    middle := 0
    last := none }

/-- The cursor for a pattern; `index` is used where the major id is not bound. -/
def plan (tree : Tree) (wanted : Coords) (index : Option PredicateIndex) : Cursor :=
  if tree.outOfReach wanted then
    start tree .any .empty none .empty
  else if wanted.major ≠ 0 then
    let occurrences := tree.middles.keySpan wanted.major.toNat
    if wanted.middle = 0 then start tree wanted .major none occurrences
    else match tree.middles.find? occurrences wanted.middle with
      | some i => start tree wanted .majorMiddle none ⟨i, i + 1⟩
      | none => start tree wanted .empty none .empty
  else if wanted.middle ≠ 0 then
    match index with
    | some x =>
      start tree wanted .predicateIndex (some x) (x.slots wanted.middle.toNat)
    | none => start tree wanted .scan none ⟨0, tree.middles.size⟩
  else start tree wanted .scan none ⟨0, tree.middles.size⟩

def pattern (c : Cursor) : Triple := c.tree.order.ofCoords c.wanted

/-! ## Going on -/

/-- The occurrence that a slot names. -/
def occurrence (c : Cursor) (slot : Nat) : Nat :=
  match c.index with
  | some x => x.slotValue slot
  | none => slot

/-- The triples of occurrence `j`, from the first that can have the minor id. -/
def runOf (c : Cursor) (j : Nat) : Span :=
  let run := c.tree.minors.keySpan (j + 1)
  if c.wanted.minor = 0 then run
  else ⟨c.tree.minors.lowerBound run.start run.stop c.wanted.minor, run.stop⟩

/-- Takes the first slot and, unless its middle id is not the wanted one, goes
to its run. -/
def enter (c : Cursor) : Cursor :=
  let j := c.occurrence c.slots.start
  let middle := c.tree.middles.value j
  if c.wanted.middle ≠ 0 ∧ middle ≠ c.wanted.middle then
    { c with slots := c.slots.tail }
  else
    { c with
      slots := c.slots.tail
      run := c.runOf j
      major := (c.tree.middles.key j).toUInt64
      middle := middle }

/-- Takes the first triple of the run if it has the minor id. If it has not,
none after it has, and the run is dropped. -/
def take (c : Cursor) : Option Triple × Cursor :=
  if c.run.isEmpty then (none, c)
  else
    let minor := c.tree.minors.value c.run.start
    if c.wanted.minor ≠ 0 ∧ minor ≠ c.wanted.minor then
      (none, { c with run := .empty })
    else
      (some (c.tree.order.ofCoords ⟨c.major, c.middle, minor⟩),
        { c with run := c.run.tail, last := some c.run.start })

@[simp] theorem slots_take (c : Cursor) : c.take.2.slots = c.slots := by
  unfold take
  split
  · rfl
  · dsimp only
    split <;> rfl

@[simp] theorem slots_enter (c : Cursor) : c.enter.slots = c.slots.tail := by
  unfold enter
  dsimp only
  split <;> rfl

/-- The next triple and the cursor behind it. -/
def next (c : Cursor) : Option Triple × Cursor :=
  match _h₀ : c.take with
  | (some t, c') => (some t, c')
  | (none, c') => if _h : c.slots.isEmpty then (none, c') else next c'.enter
termination_by c.slots.size
decreasing_by
  have hc : c'.slots = c.slots := by rw [← slots_take c, _h₀]
  simp only [slots_enter, hc]
  exact Span.size_tail_lt _h

theorem run_take {c c' : Cursor} {t : Triple} (h : c.take = (some t, c')) :
    c'.slots.size = c.slots.size ∧ c'.run.size < c.run.size := by
  refine ⟨by rw [← slots_take c, h], ?_⟩
  unfold take at h
  split at h
  · cases h
  · next hrun =>
    dsimp only at h
    split at h
    · cases h
    · cases h
      exact Span.size_tail_lt hrun

/-- Every triple takes something from what is left to go through. -/
theorem next_lt {c c' : Cursor} {t : Triple} (h : c.next = (some t, c')) :
    c'.slots.size < c.slots.size ∨
      c'.slots.size = c.slots.size ∧ c'.run.size < c.run.size := by
  fun_induction next c with
  | case1 c u d htake =>
    cases h
    exact .inr (run_take htake)
  | case2 c d htake hslots => cases h
  | case3 c d htake hslots ih =>
    have hd : d.slots = c.slots := by rw [← slots_take c, htake]
    have := ih h
    have := Span.size_tail_lt hslots
    simp only [slots_enter, hd] at *
    omega

/-- All triples left, each with its position. -/
def drain (c : Cursor) : List (Triple × Option Nat) :=
  match _h : c.next with
  | (some t, c') => (t, c'.last) :: drain c'
  | (none, _) => []
termination_by (c.slots.size, c.run.size)
decreasing_by
  rcases next_lt _h with hlt | ⟨heq, hlt⟩
  · exact Prod.Lex.left _ _ hlt
  · rw [heq]
    exact Prod.Lex.right _ hlt

/-- The cursor when no triple is left. -/
def exhaust (c : Cursor) : Cursor :=
  match _h : c.next with
  | (some _, c') => exhaust c'
  | (none, c') => c'
termination_by (c.slots.size, c.run.size)
decreasing_by
  rcases next_lt _h with hlt | ⟨heq, hlt⟩
  · exact Prod.Lex.left _ _ hlt
  · rw [heq]
    exact Prod.Lex.right _ hlt

/-- Back to before the first match. -/
def reset (c : Cursor) : Cursor :=
  { c with slots := c.initial, run := .empty, last := none }

/-- Bounds on how many triples are left; the upper one may be missing. -/
def sizeHint (c : Cursor) : Nat × Option Nat :=
  if c.strategy = .empty then (0, some 0)
  else if c.wanted = .any then
    let left := c.tree.size - c.last.elim 0 (· + 1)
    (left, some left)
  else (0, some c.tree.size)

def describe (c : Cursor) : String :=
  Text.record "SearchIter"
    [("pattern", c.pattern.describe), ("strategy", c.strategy.name),
     ("slots", c.slots.describe), ("run", c.run.describe)]

end Cursor

end TripleStore
