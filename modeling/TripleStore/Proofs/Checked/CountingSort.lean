import TripleStore.Proofs.Checked.Index
import TripleStore.Proofs.PredicateIndex.Compatible

/-!
# Building an index by a counting sort

The ids are counted first. The counts tell where the slots of each id begin and
which of them are last ones, and then each position goes into the next free slot
of its id. No access on the way fails, and the result is the index that is made
of groups (`sortIndex_eq`).
-/

namespace TripleStore.Checked

open PredicateIndex (isForeign not_isForeign_iff)
open Adjacency (groupStart)

/-- Counts the ids of some positions, up to the first foreign one. -/
def countIds (t : Tree) :
    List Nat → Array Nat → Option (Except BuildFault (Array Nat))
  | [], counts => some (.ok counts)
  | i :: rest, counts => do
    let v ← value t.middles i
    if 0 < v.toNat ∧ v.toNat < counts.size then
      countIds t rest (counts.modify v.toNat (· + 1))
    else return .error (.foreignPredicate v i (counts.size - 1))

/-- Where the slots of each id begin, those of the first at `k`. -/
def starts (k : Nat) : List Nat → List Nat
  | [] => []
  | count :: counts => k :: starts (k + count) counts

/-- The bits of the slots of one id. -/
def runBits (count : Nat) : List Bool :=
  List.replicate (count - 1) false ++ [true]

/-- Puts position `i` into the next free slot of its id. -/
def put (t : Tree) (s : Array UInt64 × Array Nat) (i : Nat) :
    Option (Array UInt64 × Array Nat) := do
  let v ← value t.middles i
  demand (0 < v.toNat)
  let slot ← s.2[v.toNat - 1]?
  demand (slot < s.1.size)
  return (s.1.setIfInBounds slot i.toUInt64,
    s.2.setIfInBounds (v.toNat - 1) (slot + 1))

def sortIndex (t : Tree) : Option (Except Error PredicateIndex) :=
  let predicates := t.maxMiddle.toNat
  let occurrences := t.middles.size
  if occurrences < predicates then
    some (.error (.construction (.tooManyPredicates predicates occurrences)))
  else do
    match ← countIds t (List.range occurrences)
      (Array.replicate (predicates + 1) 0) with
    | .error fault => return .error (.construction fault)
    | .ok counts =>
      let counts := counts.toList.tail
      match counts.findIdx? (· = 0) with
      | some i => return .error (.construction (.absentPredicate (i + 1)))
      | none =>
        let (slots, _) ← (List.range occurrences).foldlM (put t)
          (Array.replicate occurrences 0, (starts 0 counts).toArray)
        return (do return ⟨← Tree.level (counts.flatMap runBits) slots.toList⟩)

variable {t : Tree} {n : Nat} {l : List Nat}

/-! ## Counts -/

/-- Counting stops at the first foreign id, and otherwise counts each id. -/
theorem countIds_eq (hfits : t.Fits) (hl : ∀ i ∈ l, i < t.middles.size)
    {counts : Array Nat} (hsize : counts.size = n + 1) :
    countIds t l counts = some (match l.find? (isForeign t n) with
      | some i => .error (.foreignPredicate (t.middles.value i) i n)
      | none =>
        .ok (l.foldl (fun counts i => counts.modify (t.middles.value i).toNat
          (· + 1)) counts)) := by
  induction l generalizing counts with
  | nil => rfl
  | cons i l ih =>
      obtain ⟨hi, hl⟩ := List.forall_mem_cons.mp hl
      rw [countIds, value_eq hfits.middles hi, List.find?_cons, hsize]
      dsimp only [Option.bind_eq_bind, Option.bind_some]
      cases hforeign : isForeign t n i with
      | true =>
          have hid := mt not_isForeign_iff.mpr (not_not.mpr hforeign)
          rw [if_neg (by rwa [Nat.lt_succ_iff])]
          rfl
      | false =>
          have hid := not_isForeign_iff.mp (Bool.not_eq_true _ ▸ hforeign)
          rw [if_pos (by rwa [Nat.lt_succ_iff]),
            ih hl (by rw [Array.size_modify, hsize])]
          rfl

theorem getElem?_foldl_modify (key : Nat → Nat) (counts : Array Nat) (p : Nat) :
    (l.foldl (fun counts i => counts.modify (key i) (· + 1)) counts)[p]? =
      counts[p]?.map (· + l.countP fun i => key i = p) := by
  induction l generalizing counts with
  | nil => simp
  | cons i l ih =>
      rw [List.foldl_cons, ih, Array.getElem?_modify, List.countP_cons]
      by_cases h : key i = p
      · simp [h, Function.comp_def, Nat.add_assoc, Nat.add_comm 1]
      · simp [h]

/-- The counts from 1 on are the lengths of the groups. -/
theorem tail_counts (hnone : ∀ j < t.middles.size, ¬ isForeign t n j = true) :
    ((List.range t.middles.size).foldl
      (fun counts i => counts.modify (t.middles.value i).toNat (· + 1))
        (Array.replicate (n + 1) 0)).toList.tail =
          (PredicateIndex.groups t n).toList.map List.length := by
  apply List.ext_getElem?
  intro q
  rw [List.getElem?_tail, Array.getElem?_toList,
    getElem?_foldl_modify (fun i => (t.middles.value i).toNat),
    PredicateIndex.toList_groups hnone, List.map_map, List.getElem?_map]
  rcases Nat.lt_or_ge q n with hq | hq
  · rw [List.getElem?_range hq, Array.getElem?_replicate,
      if_pos (Nat.succ_lt_succ hq)]
    simp [Tree.occurrencesOf, List.countP_eq_length_filter]
  · simp [hq]

/-! ## Slots -/

theorem getElem?_starts {groups : List (List UInt64)} {k q : Nat}
    (hq : q < groups.length) :
    (starts k (groups.map List.length))[q]? =
      some (k + groupStart groups q) := by
  induction groups generalizing k q with
  | nil => exact absurd hq (Nat.not_lt_zero q)
  | cons g gs ih =>
      cases q with
      | zero => rfl
      | succ q =>
          rw [List.map_cons, starts, List.getElem?_cons_succ,
            ih (Nat.lt_of_succ_lt_succ hq), Adjacency.groupStart_cons,
            Nat.add_assoc]

/-- The positions of the id `q + 1` among some. -/
def among (t : Tree) (l : List Nat) (q : Nat) : List UInt64 :=
  (l.filter fun i => (t.middles.value i).toNat = q + 1).map (·.toUInt64)

theorem among_append (before after : List Nat) (q : Nat) :
    among t (before ++ after) q = among t before q ++ among t after q := by
  rw [among, List.filter_append, List.map_append]
  rfl

theorem among_concat_self {i q : Nat} (h : (t.middles.value i).toNat = q + 1)
    (l : List Nat) :
    among t (l ++ [i]) q = among t l q ++ [i.toUInt64] := by
  rw [among_append]
  simp [among, h]

theorem among_concat_of_ne {i q : Nat} (h : (t.middles.value i).toNat ≠ q + 1)
    (l : List Nat) :
    among t (l ++ [i]) q = among t l q := by
  rw [among_append]
  simp [among, h]

theorem length_among_le {before after : List Nat}
    (hsplit : List.range t.middles.size = before ++ after) (q : Nat) :
    (among t before q).length ≤
      (among t (List.range t.middles.size) q).length := by
  rw [hsplit, among_append, List.length_append]
  exact Nat.le_add_right _ _

/-- Before its last position, an id has a slot that is free. -/
theorem length_among_lt {before after : List Nat} {i q : Nat}
    (hsplit : List.range t.middles.size = before ++ i :: after)
    (hq : (t.middles.value i).toNat = q + 1) :
    (among t before q).length <
      (among t (List.range t.middles.size) q).length := by
  have hle := length_among_le (t := t) (hsplit.trans (List.append_cons _ _ _)) q
  rwa [among_concat_self hq, List.length_append] at hle

/-- How many slots come before those of the id `q + 1`. -/
def slotsBefore (t : Tree) (n q : Nat) : Nat :=
  groupStart (PredicateIndex.groups t n).toList q

/-- The positions `l` stand in the first slots of their ids, and the next free
slots come behind. -/
structure Filled (t : Tree) (n : Nat) (l : List Nat)
    (s : Array UInt64 × Array Nat) : Prop where
  size : s.1.size = t.middles.size
  next : ∀ q < n, s.2[q]? = some (slotsBefore t n q + (among t l q).length)
  slot : ∀ q < n, ∀ j < (among t l q).length, s.1[slotsBefore t n q + j]? =
    (among t l q)[j]?

section

variable (hnone : ∀ j < t.middles.size, ¬ isForeign t n j = true)
include hnone

theorem getElem_groups {q : Nat}
    (hq : q < (PredicateIndex.groups t n).toList.length) :
    (PredicateIndex.groups t n).toList[q] =
      among t (List.range t.middles.size) q := by
  simp only [PredicateIndex.toList_groups hnone, List.getElem_map,
    List.getElem_range]
  rfl

theorem slotsBefore_succ {q : Nat} (hq : q < n) : slotsBefore t n (q + 1) =
    slotsBefore t n q + (among t (List.range t.middles.size) q).length := by
  have hlength : q < (PredicateIndex.groups t n).toList.length := by
    rwa [Array.length_toList, PredicateIndex.size_groups]
  rw [slotsBefore, Adjacency.groupStart_succ hlength, getElem_groups hnone,
    slotsBefore]

theorem slotsBefore_le {q : Nat} (hq : q ≤ n) :
    slotsBefore t n q ≤ t.middles.size := by
  have hmono := Adjacency.groupStart_mono (PredicateIndex.groups t n).toList hq
  have hlast := Adjacency.groupStart_length (PredicateIndex.groups t n).toList
  rw [Array.length_toList, PredicateIndex.size_groups,
    PredicateIndex.length_flatten_groups hnone] at hlast
  rwa [hlast] at hmono

/-- The slots of an id are among those that there are. -/
theorem slotsBefore_add_lt {q i : Nat} (hq : q < n)
    (hi : i < (among t (List.range t.middles.size) q).length) :
    slotsBefore t n q + i < t.middles.size := by
  have hend := slotsBefore_le hnone hq
  rw [slotsBefore_succ hnone hq] at hend
  omega

/-- Slots of different ids are different. -/
theorem slotsBefore_add_ne {q r i j : Nat} (hqr : q ≠ r) (hq : q < n)
    (hr : r < n) (hi : i < (among t (List.range t.middles.size) q).length)
    (hj : j < (among t (List.range t.middles.size) r).length) :
    slotsBefore t n q + i ≠ slotsBefore t n r + j := by
  have hq' := slotsBefore_succ hnone hq
  have hr' := slotsBefore_succ hnone hr
  rcases Nat.lt_or_gt_of_ne hqr with hlt | hgt
  · have hmono : slotsBefore t n (q + 1) ≤ slotsBefore t n r :=
      Adjacency.groupStart_mono _ hlt
    omega
  · have hmono : slotsBefore t n (r + 1) ≤ slotsBefore t n q :=
      Adjacency.groupStart_mono _ hgt
    omega

/-- If the next position goes into the next free slot of its id, then no slot
that is taken changes. -/
theorem Filled.concat {before after : List Nat} {i q : Nat}
    {s : Array UInt64 × Array Nat} (h : Filled t n before s)
    (hsplit : List.range t.middles.size = before ++ i :: after)
    (hq : (t.middles.value i).toNat = q + 1) (hqn : q < n) :
    Filled t n (before ++ [i])
      (s.1.setIfInBounds
        (slotsBefore t n q + (among t before q).length) i.toUInt64,
        s.2.setIfInBounds q
          (slotsBefore t n q + (among t before q).length + 1)) := by
  have hfree := length_among_lt hsplit hq
  have hother : ∀ r, r ≠ q → among t (before ++ [i]) r = among t before r :=
    fun r hr => among_concat_of_ne
      (fun hid => hr (Nat.succ_injective (hid.symm.trans hq))) before
  constructor
  case size => rw [Array.size_setIfInBounds, h.size]
  case next =>
    intro r hr
    have hnext := h.next r hr
    rcases eq_or_ne r q with rfl | hne
    · rw [Array.getElem?_setIfInBounds_self,
        if_pos (Array.getElem?_eq_some_iff.mp hnext).1, among_concat_self hq,
        List.length_append, List.length_singleton, Nat.add_assoc]
    · rw [hother r hne, Array.getElem?_setIfInBounds_ne hne.symm, hnext]
  case slot =>
    intro r hr j hj
    rcases eq_or_ne r q with rfl | hne
    · rw [among_concat_self hq] at hj ⊢
      rcases Nat.lt_succ_iff_lt_or_eq.mp (by simpa using hj) with hlt | rfl
      · rw [Array.getElem?_setIfInBounds_ne (by omega), h.slot r hr j hlt,
          List.getElem?_append_left hlt]
      · have hslot := slotsBefore_add_lt hnone hr hfree
        rw [Array.getElem?_setIfInBounds_self, if_pos (h.size ▸ hslot),
          List.getElem?_concat_length]
    · rw [hother r hne] at hj ⊢
      rw [Array.getElem?_setIfInBounds_ne, h.slot r hr j hj]
      exact slotsBefore_add_ne hnone hne.symm hqn hr hfree
        (Nat.lt_of_lt_of_le hj (length_among_le hsplit r))

/-- The next position finds a free slot of its id. -/
theorem put_eq (hfits : t.Fits) {before after : List Nat} {i : Nat}
    {s : Array UInt64 × Array Nat}
    (hsplit : List.range t.middles.size = before ++ i :: after)
    (h : Filled t n before s) :
    ∃ s', put t s i = some s' ∧ Filled t n (before ++ [i]) s' := by
  have hi : i < t.middles.size := List.mem_range.mp (hsplit ▸ by simp)
  obtain ⟨hpos, hid⟩ := not_isForeign_iff.mp (hnone i hi)
  obtain ⟨q, hq⟩ := Nat.exists_eq_add_one.mpr hpos
  have hqn : q < n := by rwa [hq] at hid
  have hslot := slotsBefore_add_lt hnone hqn (length_among_lt hsplit hq)
  refine ⟨_, ?_, h.concat hnone hsplit hq hqn⟩
  rw [put, value_eq hfits.middles hi]
  dsimp only [Option.bind_eq_bind, Option.bind_some]
  rw [demand_eq hpos, hq, Nat.add_sub_cancel, h.next q hqn]
  dsimp only [Option.bind_eq_bind, Option.bind_some]
  rw [demand_eq (h.size ▸ hslot)]
  rfl

theorem foldlM_put (hfits : t.Fits) {before after : List Nat}
    {s : Array UInt64 × Array Nat}
    (hsplit : List.range t.middles.size = before ++ after)
    (h : Filled t n before s) :
    ∃ s', after.foldlM (put t) s = some s' ∧
      Filled t n (List.range t.middles.size) s' := by
  induction after generalizing before s with
  | nil => exact ⟨s, rfl, by rwa [hsplit, List.append_nil]⟩
  | cons i after ih =>
      obtain ⟨s', hput, hfilled⟩ := put_eq hnone hfits hsplit h
      obtain ⟨s'', hfold, hall⟩ := ih (by rw [hsplit, List.append_cons]) hfilled
      refine ⟨s'', ?_, hall⟩
      rw [List.foldlM_cons, hput]
      exact hfold

/-- When all positions are placed, the slots are the groups one after another. -/
theorem Filled.toList {s : Array UInt64 × Array Nat}
    (h : Filled t n (List.range t.middles.size) s) :
    s.1.toList = (PredicateIndex.groups t n).toList.flatten := by
  apply Adjacency.eq_flatten_of_groupStart
  · rw [Array.length_toList, h.size, PredicateIndex.length_flatten_groups hnone]
  · intro q hq j hj
    have hqn : q < n := by
      rwa [Array.length_toList, PredicateIndex.size_groups] at hq
    rw [getElem_groups hnone hq] at hj ⊢
    rw [Array.getElem?_toList]
    exact h.slot q hqn j hj

end

/-- At first every slot is free. -/
theorem filled_nil : Filled t n [] (Array.replicate t.middles.size 0,
    (starts 0 ((PredicateIndex.groups t n).toList.map
      List.length)).toArray) := by
  constructor
  case size => exact Array.size_replicate
  case next =>
    intro q hq
    have hlength : q < (PredicateIndex.groups t n).toList.length := by
      rwa [Array.length_toList, PredicateIndex.size_groups]
    rw [List.getElem?_toArray, getElem?_starts hlength, Nat.zero_add]
    rfl
  case slot => exact fun _ _ _ hj => absurd hj (Nat.not_lt_zero _)

/-! ## The index -/

theorem findIdx?_toList (groups : Array (List UInt64)) :
    groups.toList.findIdx? List.isEmpty = groups.findIdx? List.isEmpty := by
  rw [← List.findIdx?_toArray, Array.toArray_toList]

/-- A group is empty if its id is counted zero times. -/
theorem findIdx?_lengths (groups : Array (List UInt64)) :
    (groups.toList.map List.length).findIdx? (· = 0) =
      groups.findIdx? List.isEmpty := by
  rw [List.findIdx?_map, ← findIdx?_toList]
  congr 1
  funext g
  cases g with
  | nil => rfl
  | cons v g => rfl

/-- An index is the same whether its groups are collected or its positions
sorted by counting. -/
theorem sortIndex_eq (hfits : t.Fits) :
    sortIndex t = some (PredicateIndex.build t) := by
  unfold sortIndex PredicateIndex.build
  dsimp only
  split
  · rfl
  rw [countIds_eq hfits (fun i => List.mem_range.mp) Array.size_replicate]
  dsimp only [Option.bind_eq_bind, Option.bind_some]
  cases hfind : (List.range t.middles.size).find?
    (isForeign t t.maxMiddle.toNat) with
  | some i => rfl
  | none =>
      have hnone :
          ∀ j < t.middles.size, ¬ isForeign t t.maxMiddle.toNat j = true :=
        fun j hj => List.find?_eq_none.mp hfind j (List.mem_range.mpr hj)
      obtain ⟨s, hfold, hfilled⟩ :=
        foldlM_put hnone hfits (List.nil_append _).symm filled_nil
      dsimp only
      rw [tail_counts hnone, findIdx?_lengths]
      cases hempty : (PredicateIndex.groups t t.maxMiddle.toNat).findIdx?
        List.isEmpty with
      | some i => rfl
      | none =>
          dsimp only
          rw [hfold]
          dsimp only [Option.bind_eq_bind, Option.bind_some]
          rw [hfilled.toList hnone, List.flatMap_map, Adjacency.build,
            findIdx?_toList, hempty]
          rfl

end TripleStore.Checked
