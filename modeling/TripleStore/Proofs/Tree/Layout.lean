import TripleStore.Tree.Section
import TripleStore.Proofs.Adjacency.Building
import TripleStore.Proofs.Runs

/-!
# Layout of a tree

Triples that pass the check ascend in layout order: each follows the one before
it (`Follows`). A tree made of them gives each triple's coordinates back at its
position, its counts and largest ids fit together, and its lists ascend
(`holds_of_build`).
-/

namespace TripleStore

theorem countOnes_getD (bits : List Bool) :
    countOnes (fun i => bits.getD i false) bits.length = bits.count true := by
  induction bits with
  | nil => simp [countOnes]
  | cons b bits ih =>
      rw [List.length_cons, Nat.add_comm, countOnes_add]
      have hshift : (fun i => (b :: bits).getD (1 + i) false) = fun i =>
          bits.getD i false := by
        funext i
        rw [Nat.add_comm, List.getD_cons_succ]
      rw [hshift, ih]
      cases b <;> simp [countOnes, Nat.count_succ, Nat.add_comm]

/-- No id is 0, which stands for "any" in a pattern. -/
def Triple.Concrete (t : Triple) : Prop :=
  t.subject ≠ 0 ∧ t.predicate ≠ 0 ∧ t.object ≠ 0

instance (t : Triple) : Decidable t.Concrete :=
  inferInstanceAs (Decidable (_ ∧ _ ∧ _))

theorem Order.hasZero_toCoords (order : Order) (t : Triple) :
    (order.toCoords t).hasZero = false ↔ t.Concrete := by
  cases order <;> simp [Order.toCoords, Coords.hasZero,
    Triple.Concrete] <;> tauto

namespace Tree

/-! ## What a tree can promise -/

/-- There is a run of minor ids for each occurrence, and the largest ids are the
largest. -/
structure Consistent (t : Tree) : Prop where
  groups : t.minors.keys = t.middles.size
  maxMiddle : t.maxMiddle = Sequence.maximum t.middles.sequence.toList
  maxMinor : t.maxMinor = Sequence.maximum t.minors.sequence.toList

/-- The middle ids of a major id ascend, and so do the minor ids of an
occurrence, in which one may come more than once. -/
structure Ascending (t : Tree) : Prop where
  middles : ∀ j, j + 1 < t.middles.size → t.middles.isLast j = false →
    t.middles.value j < t.middles.value (j + 1)
  minors : ∀ i, i + 1 < t.size → t.minors.isLast i = false →
    t.minors.value i ≤ t.minors.value (i + 1)

/-- Position by position, the tree has the triples of a list. -/
structure Holds (t : Tree) (triples : List Triple) : Prop where
  size : t.size = triples.length
  coords : ∀ i (h : i < triples.length),
    t.coords i = t.order.toCoords triples[i]

theorem mismatch?_eq_none_iff {t : Tree} {size : Nat} :
    t.mismatch? size = none ↔ t.size = size ∧ t.Consistent := by
  unfold mismatch?
  dsimp only
  constructor
  · intro h
    split at h
    · cases h
    · split at h
      · cases h
      · split at h
        · cases h
        · next hsize hgroups hmax =>
            rw [not_or, not_not, not_not] at hmax
            exact ⟨not_not.mp hsize, not_not.mp hgroups, hmax.1, hmax.2⟩
  · rintro ⟨hsize, hgroups, hmiddle, hminor⟩
    simp [hsize, hgroups, ← hmiddle, ← hminor]

theorem Holds.toList {t : Tree} {triples : List Triple} (h : t.Holds triples) :
    t.toList = triples := by
  apply List.ext_getElem
  · simpa [Tree.toList] using h.size
  · intro i _ hi
    simp [Tree.toList, h.coords i hi]

/-! ## Ascending coordinates -/

/-- `c` may come right behind `l`. -/
def Follows (l c : Coords) : Prop :=
  (c.major.toNat = l.major.toNat + 1) ∨
  (c.major = l.major ∧ l.middle < c.middle) ∨
    (c.major = l.major ∧ c.middle = l.middle ∧ l.minor ≤ c.minor)

/-- Only a new major id or a larger middle id begins a new occurrence. -/
def FollowsOccurrence (l c : Coords) : Prop :=
  (c.major.toNat = l.major.toNat + 1) ∨
  (c.major = l.major ∧ l.middle < c.middle)

/-- An id that is not smaller is the next one if adding one leads to it: that
does not wrap around. -/
theorem eq_add_one_iff {l c : Id} (h : ¬ c < l) :
    c = l + 1 ↔ c.toNat = l.toNat + 1 := by
  rw [UInt64.lt_iff_toNat_lt] at h
  rw [← UInt64.toNat_inj, UInt64.toNat_add]
  have hone : (1 : UInt64).toNat = 1 := rfl
  have := c.toNat_lt
  have := l.toNat_lt
  omega

/-- What may stand behind a triple is what follows it. -/
theorem fault?_some_iff {order : Order} {l : Coords} {t : Triple} :
    fault? order (some l) t = none ↔ Follows l (order.toCoords t) ∧
    t.Concrete := by
  rw [fault?, ← order.hasZero_toCoords t, Follows]
  generalize order.toCoords t = c
  cases c.hasZero with
  | true => simp
  | false =>
      by_cases hmajor : c.major = l.major
      · by_cases hmiddle : c.middle = l.middle
        · simp [hmajor, hmiddle, UInt64.not_lt]
        · have hless : l.middle ≤ c.middle ↔ l.middle < c.middle :=
            ⟨fun hle => UInt64.lt_of_le_of_ne hle (Ne.symm hmiddle),
              UInt64.le_of_lt⟩
          simp [hmajor, hmiddle, UInt64.not_lt, hless]
      · by_cases hless : c.major < l.major
        · have hnext : c.major.toNat ≠ l.major.toNat + 1 := by
            rw [UInt64.lt_iff_toNat_lt] at hless
            omega
          simp [hmajor, hless, hnext]
        · simp [hmajor, hless, eq_add_one_iff hless]

theorem fault?_none_iff {order : Order} {t : Triple} :
    fault? order none t = none ↔ (order.toCoords t).major = 1 ∧ t.Concrete := by
  rw [fault?, ← order.hasZero_toCoords t]
  cases (order.toCoords t).hasZero with
  | true => simp
  | false => simp

theorem check_cons_iff {order : Order} {last : Option Coords} {t : Triple}
    {ts : List Triple} :
    check order last (t :: ts) = .ok () ↔
      fault? order last t = none ∧
      check order (some (order.toCoords t)) ts = .ok () := by
  rw [check]
  cases fault? order last t with
  | some fault => simp
  | none => simp

theorem check_some_iff {order : Order} {l : Coords} {triples : List Triple} :
    check order (some l) triples = .ok () ↔
      (l :: triples.map order.toCoords).IsChain Follows ∧
      ∀ t ∈ triples, t.Concrete := by
  induction triples generalizing l with
  | nil => simp [check]
  | cons t ts ih =>
      rw [check_cons_iff, fault?_some_iff, ih, List.map_cons,
        List.isChain_cons_cons, List.forall_mem_cons]
      tauto

/-- Checked triples are those that ascend from major id 1 on. -/
theorem check_iff {order : Order} {triples : List Triple} :
    check order none triples = .ok () ↔
    (triples.map order.toCoords).IsChain Follows ∧
      (∀ c ∈ (triples.map order.toCoords).head?, c.major = 1) ∧
      ∀ t ∈ triples, t.Concrete := by
  cases triples with
  | nil => simp [check]
  | cons t ts =>
      rw [check_cons_iff, fault?_none_iff, check_some_iff, List.map_cons,
        List.forall_mem_cons]
      simp only [List.head?_cons, Option.mem_some_iff, forall_eq']
      tauto

/-- The occurrences of ascending coordinates ascend. -/
theorem followsOccurrence_lasts {l : List Coords} (h : l.IsChain Follows) :
    (Runs.lasts occurrence l).IsChain FollowsOccurrence := by
  apply Runs.isChain_lasts h
  intro a b c hab hne hcb
  obtain ⟨hmajor, hmiddle⟩ := Prod.mk.injEq .. ▸ hcb
  rw [FollowsOccurrence, hmajor, hmiddle]
  -- where an occurrence ends, the next triple is not one of the same occurrence
  rcases hab with hnext | hless | ⟨hmajor', hmiddle', _⟩
  · exact .inl hnext
  · exact .inr hless
  · exact absurd (by rw [occurrence, occurrence, hmajor', hmiddle']) hne

theorem first_lasts {l : List Coords} (h : ∀ c ∈ l.head?, c.major = 1) :
    ∀ c ∈ (Runs.lasts occurrence l).head?, c.major = 1 := by
  cases l with
  | nil => simp [Runs.lasts]
  | cons d l =>
      obtain ⟨b, rest, hlasts, hb⟩ := Runs.lasts_cons occurrence d l
      obtain ⟨hmajor, -⟩ := Prod.mk.injEq .. ▸ hb
      rw [hlasts]
      intro c hc
      obtain rfl : b = c := by simpa using hc
      rw [hmajor]
      exact h d rfl

/-- A major id is one more than the number of major ids that end before it. -/
theorem major_eq {l : List Coords} (h : l.IsChain FollowsOccurrence)
    (hfirst : ∀ c ∈ l.head?, c.major = 1) {i : Nat} (hi : i < l.length) :
    l[i].major.toNat = Runs.endsBefore Coords.major l i + 1 := by
  -- by induction from the front, so for a list that may begin with any major id
  suffices haux : ∀ (c : Coords) (l : List Coords),
      (c :: l).IsChain FollowsOccurrence →
      ∀ i (hi : i < (c :: l).length),
        (c :: l)[i].major.toNat = Runs.endsBefore Coords.major (c :: l) i +
          c.major.toNat by
    cases l with
    | nil => simp at hi
    | cons c l =>
        rw [haux c l h i hi, hfirst c rfl]
        rfl
  intro c l
  induction l generalizing c with
  | nil =>
      intro _ i hi
      obtain rfl : i = 0 := by simpa using hi
      simp [Runs.endsBefore_zero]
  | cons d l ih =>
      intro h i hi
      obtain ⟨hcd, hchain⟩ := List.isChain_cons_cons.mp h
      cases i with
      | zero => simp [Runs.endsBefore_zero]
      | succ i =>
          rw [List.getElem_cons_succ, ih d hchain i (by simpa using hi),
            Runs.endsBefore_cons_succ]
          rcases hcd with hnext | ⟨hsame, _⟩
          · rw [if_neg (by rintro heq; rw [heq] at hnext; omega)]
            omega
          · rw [if_pos hsame.symm, hsame, Nat.add_zero]

/-! ## Building -/

/-- What a tree is made of. -/
theorem parts_of_build {order : Order} {triples : List Triple} {t : Tree}
    (h : build order triples = .ok t) :
    check order none triples = .ok () ∧ t.order = order ∧
      level (Runs.ends Coords.major
        (Runs.lasts occurrence (triples.map order.toCoords)))
        ((Runs.lasts occurrence (triples.map order.toCoords)).map
          Coords.middle) = .ok t.middles ∧
      level (Runs.ends occurrence (triples.map order.toCoords))
        ((triples.map order.toCoords).map Coords.minor) = .ok t.minors ∧
      t.maxMiddle = Sequence.maximum
        ((Runs.lasts occurrence (triples.map order.toCoords)).map
          Coords.middle) ∧
      t.maxMinor = Sequence.maximum
        ((triples.map order.toCoords).map Coords.minor) := by
  unfold build at h
  cases hcheck : check order none triples with
  | error e =>
      rw [hcheck] at h
      cases h
  | ok u =>
      rw [hcheck] at h
      dsimp only [bind, Except.bind] at h
      split at h
      · cases h
      next middles hmiddles =>
      split at h
      · cases h
      next minors hminors =>
      cases h
      exact ⟨rfl, rfl, hmiddles, hminors, rfl, rfl⟩

section Built

variable {order : Order} {triples : List Triple} {t : Tree}

theorem consistent_of_build (h : build order triples = .ok t) :
    t.Consistent := by
  obtain ⟨_, _, hmiddles, hminors, hmaxMiddle, hmaxMinor⟩ := parts_of_build h
  have hmiddles := Adjacency.holds_of_level hmiddles
  have hminors := Adjacency.holds_of_level hminors
  refine ⟨?_, by rw [hmaxMiddle, hmiddles.sequence_toList],
    by rw [hmaxMinor, hminors.sequence_toList]⟩
  rw [hminors.keys, ← hminors.length_bits, countOnes_getD, Runs.count_ends,
    ← hmiddles.length_values, List.length_map]

theorem holds_of_build (h : build order triples = .ok t) :
    t.order = order ∧ t.Holds triples := by
  obtain ⟨hcheck, horder, hmiddles, hminors, -, -⟩ := parts_of_build h
  have hmiddles := Adjacency.holds_of_level hmiddles
  have hminors := Adjacency.holds_of_level hminors
  obtain ⟨hchain, hfirst, -⟩ := check_iff.mp hcheck
  have hsize : t.size = triples.length := by
    rw [size, ← hminors.length_values, List.length_map, List.length_map]
  refine ⟨horder, hsize, fun i hi => ?_⟩
  have hi' : i < (triples.map order.toCoords).length := by rwa [List.length_map]
  -- the occurrence that position `i` lies in
  have hgroup :
      t.minors.key i - 1 =
        Runs.endsBefore occurrence (triples.map order.toCoords) i := by
    rw [hminors.key (by rw [← hminors.length_values, List.length_map]; omega)]
    rfl
  obtain ⟨o, ho, hkey⟩ := Runs.key_lasts occurrence _ hi'
  rw [← hgroup] at ho
  obtain ⟨hlt, hget⟩ := List.getElem?_eq_some_iff.mp ho
  have hcount := major_eq (followsOccurrence_lasts hchain)
    (first_lasts hfirst) hlt
  have hlength : (Runs.lasts occurrence (triples.map order.toCoords)).length =
      t.middles.size := by
    rw [← hmiddles.length_values, List.length_map]
  have hmajor : (t.middles.key (t.minors.key i - 1)).toUInt64 = o.major := by
    rw [hmiddles.key (by omega)]
    apply UInt64.toNat_inj.mp
    rw [← hget, hcount]
    exact Adjacency.toNat_toUInt64 (by
      have := countOnes_le (fun j => (Runs.ends Coords.major
        (Runs.lasts occurrence (triples.map order.toCoords))).getD j false)
          (t.minors.key i - 1)
      have := t.middles.size_le
      omega)
  have hmiddle : t.middles.value (t.minors.key i - 1) = o.middle := by
    rw [hmiddles.value _ (by rwa [List.length_map]), List.getElem_map, hget]
  obtain ⟨hsameMajor, hsameMiddle⟩ := Prod.mk.injEq .. ▸ hkey
  rw [coords, horder, hmajor, hmiddle, hsameMajor, hsameMiddle,
    hminors.value i (by simpa using hi)]
  simp

theorem ascending_of_build (h : build order triples = .ok t) : t.Ascending := by
  obtain ⟨hcheck, -, hmiddles, hminors, -, -⟩ := parts_of_build h
  have hmiddles := Adjacency.holds_of_level hmiddles
  have hminors := Adjacency.holds_of_level hminors
  obtain ⟨hchain, -, -⟩ := check_iff.mp hcheck
  constructor
  · intro j hj hlast
    have hlength := hmiddles.length_values
    rw [List.length_map] at hlength
    rw [hmiddles.bit j (by omega)] at hlast
    have hsame := Runs.key_eq_of_not_end _ (by omega) hlast
    rw [hmiddles.value j (by rw [List.length_map]; omega),
      hmiddles.value (j + 1) (by rw [List.length_map]; omega),
      List.getElem_map Coords.middle, List.getElem_map Coords.middle]
    rcases (List.isChain_iff_getElem.mp (followsOccurrence_lasts hchain)) j
      (by omega) with
      hnext | ⟨_, hless⟩
    · rw [hsame] at hnext
      omega
    · exact hless
  · intro i hi hlast
    have hlength := hminors.length_values
    rw [List.length_map] at hlength
    rw [size] at hi
    rw [hminors.bit i (by omega)] at hlast
    have hsame := Runs.key_eq_of_not_end _ (by omega) hlast
    obtain ⟨hmajor, hmiddle⟩ := Prod.mk.injEq .. ▸ hsame
    rw [hminors.value i (by rw [List.length_map]; omega),
      hminors.value (i + 1) (by rw [List.length_map]; omega),
      List.getElem_map Coords.minor, List.getElem_map Coords.minor]
    rcases (List.isChain_iff_getElem.mp hchain) i (by omega) with
      hnext | ⟨_, hless⟩ | ⟨_, _, hle⟩
    · rw [hmajor] at hnext
      omega
    · rw [hmiddle, UInt64.lt_iff_toNat_lt] at hless
      omega
    · exact hle

end Built

end Tree

end TripleStore
