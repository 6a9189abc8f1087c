import TripleStore.Proofs.Checked.Cursor

/-!
# Building an index with every access checked

Building goes through the middle ids twice: to look for one that is foreign, and
to put each position to those of its id. No check fails, because the second time
no id is foreign.
-/

namespace TripleStore.Checked

/-- The first of some positions whose id is not one of 1, …, `n`. -/
def findForeign (t : Tree) (n : Nat) : List Nat → Option (Option Nat)
  | [] => some none
  | i :: rest => do
    let v ← value t.middles i
    if v = 0 || n < v.toNat then return some i else findForeign t n rest

/-- Puts position `i` to the others of its id. -/
def place (t : Tree) (i : Nat) (groups : Array (List UInt64)) :
    Option (Array (List UInt64)) := do
  let v ← value t.middles i
  demand (0 < v.toNat)
  demand (v.toNat ≤ groups.size)
  return groups.modify (v.toNat - 1) (i.toUInt64 :: ·)

def groups (t : Tree) (n : Nat) : Option (Array (List UInt64)) :=
  (List.range t.middles.size).foldrM (place t) (Array.replicate n [])

def buildIndex (t : Tree) : Option (Except Error PredicateIndex) :=
  let predicates := t.maxMiddle.toNat
  let occurrences := t.middles.size
  if occurrences < predicates then
    some (.error (.construction (.tooManyPredicates predicates occurrences)))
  else do
    match ← findForeign t predicates (List.range occurrences) with
    | some i =>
      let v ← value t.middles i
      return .error (.construction (.foreignPredicate v i predicates))
    | none =>
      let groups ← groups t predicates
      match groups.findIdx? List.isEmpty with
      | some i => return .error (.construction (.absentPredicate (i + 1)))
      | none => return (do return ⟨← Adjacency.build groups.toList⟩)

variable {t : Tree} {n : Nat} {l : List Nat}

theorem findForeign_eq (hfits : t.Fits) (hl : ∀ i ∈ l, i < t.middles.size) :
    findForeign t n l = some (l.find? (PredicateIndex.isForeign t n)) := by
  induction l with
  | nil => rfl
  | cons i l ih =>
      obtain ⟨hi, hl⟩ := List.forall_mem_cons.mp hl
      rw [findForeign, value_eq hfits.middles hi, List.find?_cons,
        PredicateIndex.isForeign, ih hl]
      dsimp only [Option.bind_eq_bind, Option.bind_some]
      cases (decide (t.middles.value i = 0) ||
        decide (n < (t.middles.value i).toNat)) with
      | true => rfl
      | false => rfl

/-- While no id is foreign there is a group for every id. -/
theorem foldrM_place (hfits : t.Fits)
    (hl : ∀ i ∈ l, i < t.middles.size ∧
      ¬ PredicateIndex.isForeign t n i = true) :
    l.foldrM (place t) (Array.replicate n []) = some (l.foldr (fun i groups =>
      groups.modify ((t.middles.value i).toNat - 1) (i.toUInt64 :: ·))
        (Array.replicate n [])) ∧
    (l.foldr (fun i groups =>
      groups.modify ((t.middles.value i).toNat - 1) (i.toUInt64 :: ·))
      (Array.replicate n [])).size = n := by
  induction l with
  | nil => exact ⟨rfl, Array.size_replicate⟩
  | cons i l ih =>
      obtain ⟨⟨hi, hforeign⟩, hl⟩ := List.forall_mem_cons.mp hl
      obtain ⟨hfold, hsize⟩ := ih hl
      obtain ⟨hpos, hle⟩ := PredicateIndex.not_isForeign_iff.mp hforeign
      rw [List.foldrM_cons, hfold, List.foldr_cons]
      refine ⟨?_, by rw [Array.size_modify, hsize]⟩
      show place t i _ = _
      rw [place, value_eq hfits.middles hi]
      dsimp only [Option.bind_eq_bind, Option.bind_some]
      rw [demand_eq hpos, demand_eq (by rwa [hsize])]
      rfl

theorem groups_eq (hfits : t.Fits)
    (hnone : (List.range t.middles.size).find?
      (PredicateIndex.isForeign t n) = none) :
    groups t n = some (PredicateIndex.groups t n) :=
  (foldrM_place hfits fun i hi => ⟨List.mem_range.mp hi,
    List.find?_eq_none.mp hnone i hi⟩).1

/-- Building an index reads middle ids that there are, and ends as it does
unchecked. -/
theorem buildIndex_eq (hfits : t.Fits) :
    buildIndex t = some (PredicateIndex.build t) := by
  unfold buildIndex PredicateIndex.build
  dsimp only
  split
  · rfl
  rw [findForeign_eq hfits fun i => List.mem_range.mp]
  dsimp only [Option.bind_eq_bind, Option.bind_some]
  cases hfind : (List.range t.middles.size).find?
    (PredicateIndex.isForeign t t.maxMiddle.toNat) with
  | some i =>
      have hi := List.mem_range.mp (List.mem_of_find?_eq_some hfind)
      dsimp only
      rw [value_eq hfits.middles hi]
      rfl
  | none =>
      dsimp only
      rw [groups_eq hfits hfind]
      dsimp only [Option.bind_eq_bind, Option.bind_some]
      cases (PredicateIndex.groups t t.maxMiddle.toNat).findIdx?
        List.isEmpty with
      | some i => rfl
      | none => rfl

end TripleStore.Checked
