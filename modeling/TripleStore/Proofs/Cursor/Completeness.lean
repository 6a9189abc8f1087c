import TripleStore.Proofs.Cursor.Walk
import TripleStore.Proofs.PredicateIndex.Transposition

/-!
# Complete answers

In a consistent tree whose ids are found where they stand, and with an index
that lists the tree or none, the places of a walk are the positions that the
pattern covers (`flatMap_walk`). So every pattern gives what filtering all
entries gives (`drain_plan_eq`).
-/

namespace TripleStore

/-! ## Lists of positions -/

theorem filter_eq_takeWhile {α : Type} {p : α → Bool} {l : List α}
    (h : l.Pairwise fun a b => p b = true → p a = true) :
    l.filter p = l.takeWhile p := by
  induction l with
  | nil => rfl
  | cons a l ih =>
      obtain ⟨ha, hl⟩ := List.pairwise_cons.mp h
      rw [List.filter_cons, List.takeWhile_cons]
      by_cases hp : p a = true
      · rw [if_pos hp, if_pos hp, ih hl]
      · -- where one fails, all behind it fail
        rw [if_neg hp, if_neg hp, List.filter_eq_nil_iff]
        exact fun b hb hpb => hp (ha b hb hpb)

/-- What gives nothing need not be gone through. -/
theorem flatMap_filter_of_nil {α β : Type} {p : α → Bool} {f : α → List β}
    {l : List α} (h : ∀ a ∈ l, ¬ p a = true → f a = []) :
    (l.filter p).flatMap f = l.flatMap f := by
  induction l with
  | nil => rfl
  | cons a l ih =>
      have ih := ih fun b hb => h b (List.mem_cons_of_mem _ hb)
      rw [List.filter_cons, List.flatMap_cons]
      by_cases hp : p a = true
      · rw [if_pos hp, List.flatMap_cons, ih]
      · rw [if_neg hp, h a List.mem_cons_self hp, ih, List.nil_append]

/-! ## Occurrences that a pattern meets -/

namespace Cursor

variable {c : Cursor}

/-- The occurrence has the major id that is asked for. -/
def reaches (c : Cursor) (j : Nat) : Bool :=
  c.wanted.major == 0 || c.tree.middles.key j == c.wanted.major.toNat

theorem key_toUInt64 {a : Adjacency} {i : Nat} (hi : i < a.size) :
    (a.key i).toUInt64.toNat = a.key i := by
  have := Adjacency.key_le hi
  have := a.keys_le
  have := a.size_le
  exact Adjacency.toNat_toUInt64 (by omega)

theorem covers_of_mem_run (h : c.tree.Consistent) {i j : Nat}
    (hj : j < c.tree.middles.size) (hi : i ∈ (c.tree.run j).toList) :
    c.wanted.covers (c.tree.coords i) = ((c.reaches j && c.admits j) &&
      c.wants i) := by
  have hmajor : (c.wanted.major == (c.tree.middles.key j).toUInt64) =
      (c.tree.middles.key j == c.wanted.major.toNat) := by
    rw [Bool.eq_iff_iff, beq_iff_eq, beq_iff_eq, ← UInt64.toNat_inj,
      key_toUInt64 hj]
    exact eq_comm
  rw [Tree.coords_of_mem_run h hj hi, Coords.covers, reaches, admits, wants]
  dsimp only
  rw [hmajor, Bool.beq_comm (a := c.wanted.middle)
    (b := c.tree.middles.value j),
    Bool.beq_comm (a := c.wanted.minor) (b := c.tree.minors.value i)]

/-- An occurrence covers something only if its major and middle id are asked for. -/
theorem covered_eq (h : c.tree.Consistent) {j : Nat}
    (hj : j < c.tree.middles.size) :
    c.tree.covered c.wanted j =
      if c.reaches j && c.admits j then
        (c.tree.run j).toList.filter c.wants else [] := by
  rw [Tree.covered, List.filter_congr fun i hi => covers_of_mem_run h hj hi]
  by_cases hmeets : (c.reaches j && c.admits j) = true
  · simp [hmeets]
  · rw [Bool.not_eq_true] at hmeets
    simp [hmeets]

theorem wants_iff (hminor : c.wanted.minor ≠ 0) (i : Nat) :
    c.wants i = true ↔ c.tree.minors.value i = c.wanted.minor := by
  simp [wants, hminor]

/-- A run is entered where the search for any of its triples with the wanted id
ends. -/
theorem runOf_eq_firstOf (h : c.tree.Consistent) {i j : Nat}
    (hj : j < c.tree.middles.size) (hi : i ∈ (c.tree.run j).toList)
    (hminor : c.wanted.minor ≠ 0)
    (hvalue : c.tree.minors.value i = c.wanted.minor) :
    c.runOf j = ⟨c.tree.minors.firstOf i, (c.tree.run j).stop⟩ := by
  rw [← h.groups] at hj
  rw [runOf, if_neg hminor, Adjacency.firstOf,
    ((Adjacency.mem_keySpan_iff hj).mp hi).2, hvalue]
  rfl

/-- A triple of the run with the wanted minor id stands in the part that halving
leaves, and only such triples stand before it there. -/
theorem wants_of_mem_run (h : c.tree.Consistent)
    (hfind : c.tree.Findable) {i j : Nat} (hj : j < c.tree.middles.size)
    (hi : i ∈ (c.tree.run j).toList) (hw : c.wants i = true)
    (hminor : c.wanted.minor ≠ 0) :
    i ∈ (c.runOf j).toList ∧ ∀ m ∈ (c.runOf j).toList, m ≤ i →
      c.wants m = true := by
  rw [wants_iff hminor] at hw
  rw [runOf_eq_firstOf h hj hi hminor hw]
  rw [← h.groups] at hj
  obtain ⟨hle, hsame⟩ :=
    hfind.minors i ((Adjacency.mem_keySpan_iff hj).mp hi).1 (by
      rw [hw]
      exact hminor)
  refine ⟨Span.mem_toList.mpr ⟨hle, (Span.mem_toList.mp hi).2⟩, fun m hm hmi => ?_⟩
  exact (wants_iff hminor m).mpr
    ((hsame m (Span.mem_toList.mp hm).1 hmi).trans hw)

/-- In a run that is entered by halving, what is wanted comes first. -/
theorem takeWhile_runOf (h : c.tree.Consistent)
    (hfind : c.tree.Findable) {j : Nat} (hj : j < c.tree.middles.size) :
    (c.runOf j).toList.takeWhile c.wants =
      (c.tree.run j).toList.filter c.wants := by
  by_cases hminor : c.wanted.minor = 0
  · have hall : ∀ i, c.wants i = true := fun i => by simp [wants, hminor]
    rw [← filter_eq_takeWhile (List.pairwise_of_forall fun i _ _ => hall i),
      runOf, if_pos hminor]
    rfl
  · have hclosed : (c.runOf j).toList.Pairwise fun i i' => c.wants i' = true →
        c.wants i = true := by
      refine (Span.pairwise_toList _).imp_of_mem fun {i i'} hi hi' hlt hw => ?_
      exact (wants_of_mem_run h hfind hj (runOf_subset h hj hi') hw hminor).2 i
        hi (Nat.le_of_lt hlt)
    rw [← filter_eq_takeWhile hclosed]
    apply ((Span.pairwise_toList _).filter _).eq_of_mem_iff
      ((Span.pairwise_toList _).filter _)
    intro i
    rw [List.mem_filter, List.mem_filter]
    constructor
    · rintro ⟨hi, hw⟩
      exact ⟨runOf_subset h hj hi, hw⟩
    · rintro ⟨hi, hw⟩
      exact ⟨(wants_of_mem_run h hfind hj hi hw hminor).1, hw⟩

theorem places_eq_covered (h : c.tree.Consistent)
    (hfind : c.tree.Findable) {j : Nat} (hj : j < c.tree.middles.size)
    (hreaches : c.reaches j = true) :
    places c.tree c.wanted j = c.tree.covered c.wanted j := by
  rw [places_eq, covered_eq h hj, hreaches, Bool.true_and,
    takeWhile_runOf h hfind hj]

/-! ## Walks -/

/-- Nothing out of reach is covered. -/
theorem covered_of_outOfReach (h : c.tree.Consistent)
    (hreach : c.tree.outOfReach c.wanted = true) {j : Nat}
    (hj : j < c.tree.middles.size) : c.tree.covered c.wanted j = [] := by
  rw [covered_eq h hj]
  split
  swap
  · rfl
  next hmeets =>
  rw [List.filter_eq_nil_iff]
  intro i hi hw
  have hi := ((Adjacency.mem_keySpan_iff (by rwa [h.groups])).mp hi).1
  have hkey := Adjacency.key_le hj
  have hmiddle := Adjacency.value_le_maximum hj
  have hminor := Adjacency.value_le_maximum hi
  rw [← h.maxMiddle] at hmiddle
  rw [← h.maxMinor] at hminor
  simp only [Tree.outOfReach, Bool.or_eq_true, decide_eq_true_eq] at hreach
  simp only [UInt64.lt_iff_toNat_lt, Tree.majors] at hreach
  simp only [reaches, admits, wants, Bool.and_eq_true, Bool.or_eq_true,
    beq_iff_eq] at hmeets hw
  -- an id that is out of reach is none of the tree's, and it is not 0
  rcases hreach with (hlt | hlt) | hlt
  · rcases hmeets.1 with hany | hmajor
    · rw [hany] at hlt
      exact Nat.not_lt_zero _ hlt
    · omega
  · rcases hmeets.2 with hany | hmid
    · rw [hany] at hlt
      exact Nat.not_lt_zero _ hlt
    · rw [hmid] at hmiddle
      omega
  · rcases hw with hany | hmin
    · rw [hany] at hlt
      exact Nat.not_lt_zero _ hlt
    · rw [hmin] at hminor
      omega

theorem keySpan_eq_filter {a : Adjacency} {k : Nat} (hpos : 0 < k)
    (hk : k ≤ a.keys) :
    (a.keySpan k).toList = (List.range a.size).filter fun i =>
      a.key i == k := by
  obtain ⟨k, rfl⟩ := Nat.exists_eq_add_one.mpr hpos
  apply (Span.pairwise_toList _).eq_of_mem_iff (List.pairwise_lt_range.filter _)
  intro i
  rw [Adjacency.mem_keySpan_iff hk, List.mem_filter, List.mem_range, beq_iff_eq]

/-- A middle id is found where it stands, and it stands nowhere else in the list
of its key. -/
theorem find?_eq_filter {t : Tree} (hfind : t.Findable) {k : Nat} {v : UInt64}
    (hpos : 0 < k) (hk : k ≤ t.middles.keys) (hv : v ≠ 0) :
    (t.middles.find? (t.middles.keySpan k) v).toList =
      (List.range t.middles.size).filter fun j => t.middles.key j == k &&
        t.middles.value j == v := by
  obtain ⟨k, rfl⟩ := Nat.exists_eq_add_one.mpr hpos
  -- wherever the id stands in the span, there the search ends
  have hfirst : ∀ j < t.middles.size, t.middles.key j = k + 1 →
      t.middles.value j = v →
      t.middles.lowerBound (t.middles.keySpan (k + 1)).start
        (t.middles.keySpan (k + 1)).stop v = j := by
    intro j hj hkey hvalue
    have h := hfind.middles j hj (by rwa [hvalue])
    rwa [Adjacency.firstOf, hkey, hvalue] at h
  have hpairwise : ∀ o : Option Nat, o.toList.Pairwise (· < ·) := by
    rintro (_ | i) <;> simp
  apply (hpairwise _).eq_of_mem_iff (List.pairwise_lt_range.filter _)
  intro j
  rw [Option.mem_toList, List.mem_filter, List.mem_range, Bool.and_eq_true,
    beq_iff_eq, beq_iff_eq]
  constructor
  · exact Adjacency.find?_eq_some hk
  · rintro ⟨hj, hkey, hvalue⟩
    have hspan := (Adjacency.mem_keySpan_iff hk).mpr ⟨hj, hkey⟩
    rw [Adjacency.find?, hfirst j hj hkey hvalue,
      if_pos ⟨(Span.mem_toList.mp hspan).2, hvalue⟩]

/-- Of the occurrences with the major id it is enough to go through those where
something is covered. -/
theorem flatMap_filter_places (h : c.tree.Consistent) (hfind : c.tree.Findable)
    {p : Nat → Bool} (hreaches : ∀ j, p j = true → c.reaches j = true)
    (hcovered : ∀ j, ¬ p j = true → ¬ (c.reaches j && c.admits j) = true) :
    ((List.range c.tree.middles.size).filter p).flatMap
      (places c.tree c.wanted) =
      (List.range c.tree.middles.size).flatMap (c.tree.covered c.wanted) := by
  rw [← flatMap_filter_of_nil (p := p) (f := c.tree.covered c.wanted)
    fun j hj hp => by
      rw [covered_eq h (List.mem_range.mp hj), if_neg (hcovered j hp)]]
  apply List.flatMap_congr
  intro j hj
  obtain ⟨hj, hp⟩ := List.mem_filter.mp hj
  exact places_eq_covered h hfind (List.mem_range.mp hj) (hreaches j hp)

/-- The walk of a cursor's own plan stops exactly where the pattern covers. -/
theorem flatMap_walk_self (c : Cursor) (h : c.tree.Consistent)
    (hfind : c.tree.Findable) {index : Option PredicateIndex}
    (hindex : ∀ x ∈ index, x.Lists c.tree) :
    (walk c.tree c.wanted index).flatMap (places c.tree c.wanted) =
      (List.range c.tree.middles.size).flatMap (c.tree.covered c.wanted) := by
  -- a walk through all occurrences, which the last two kinds of plan have in common
  have hscan : c.wanted.major = 0 → (List.range c.tree.middles.size).flatMap
      (places c.tree c.wanted) = (List.range c.tree.middles.size).flatMap
      (c.tree.covered c.wanted) := by
    intro hmajor
    have := flatMap_filter_places (p := fun _ => true) h hfind
      (fun j _ => by simp [reaches, hmajor]) (fun j hj => absurd rfl hj)
    rwa [List.filter_eq_self.mpr (by simp)] at this
  unfold walk
  split
  · next hreach =>
      exact (List.flatMap_eq_nil_iff.mpr fun j hj =>
        covered_of_outOfReach h hreach (List.mem_range.mp hj)).symm
  next hreach =>
  split
  · next hmajor =>
      have hpos := toNat_pos hmajor
      have hle := (not_outOfReach_iff.mp hreach).1
      dsimp only
      split
      · next hmiddle =>
          -- the major id alone: the span of its key
          rw [keySpan_eq_filter hpos hle]
          apply flatMap_filter_places h hfind
          · intro j hj
            rw [reaches, hj, Bool.or_true]
          · intro j hj
            simp [reaches, hmajor, hj]
      · next hmiddle =>
          -- both ids: at most one occurrence
          rw [find?_eq_filter hfind hpos hle hmiddle]
          apply flatMap_filter_places h hfind
          · intro j hj
            rw [reaches, (Bool.and_eq_true_iff.mp hj).1, Bool.or_true]
          · intro j hj
            simpa [reaches, admits, hmajor, hmiddle] using hj
  next hmajor =>
  rw [not_not] at hmajor
  split
  · next hmiddle =>
      cases index with
      | none => exact hscan hmajor
      | some x =>
          -- the middle id alone: what the index lists
          have hlists := hindex x rfl _ (toNat_pos hmiddle)
            (not_outOfReach_iff.mp hreach).2.1
          rw [PredicateIndex.listed] at hlists
          dsimp only
          rw [hlists, Tree.occurrencesOf]
          apply flatMap_filter_places h hfind
          · intro j _
            simp [reaches, hmajor]
          · intro j hj
            rw [decide_eq_true_eq, UInt64.toNat_inj] at hj
            simp [admits, hmiddle, hj]
  · exact hscan hmajor

section Plan

variable {t : Tree} {wanted : Coords} {index : Option PredicateIndex}

/-- A walk stops exactly where the pattern covers. -/
theorem flatMap_walk (h : t.Consistent) (hfind : t.Findable)
    (hindex : ∀ x ∈ index, x.Lists t) :
    (walk t wanted index).flatMap (places t wanted) =
      (List.range t.middles.size).flatMap (t.covered wanted) :=
  flatMap_walk_self (start t wanted .scan none .empty) h hfind hindex

/-- A walk goes through occurrences that there are. -/
theorem walk_lt (hindex : ∀ x ∈ index, ∀ p, 0 < p → p ≤ t.maxMiddle.toNat →
    ∀ j ∈ x.listed p, j < t.middles.size) :
    ∀ j ∈ walk t wanted index, j < t.middles.size := by
  intro j hj
  unfold walk at hj
  split at hj
  · simp at hj
  next hreach =>
  split at hj
  · next hmajor =>
      have hle := (not_outOfReach_iff.mp hreach).1
      dsimp only at hj
      split at hj
      · exact keySpan_lt (toNat_pos hmajor) hle hj
      · obtain ⟨k, hk⟩ := Nat.exists_eq_add_one.mpr (toNat_pos hmajor)
        rw [hk] at hj hle
        exact (Adjacency.find?_eq_some hle (Option.mem_toList.mp hj)).1
  next hmajor =>
  split at hj
  · next hmiddle =>
      cases index with
      | none => exact List.mem_range.mp hj
      | some x =>
          exact hindex x rfl _ (toNat_pos hmiddle)
            (not_outOfReach_iff.mp hreach).2.1 j hj
  · exact List.mem_range.mp hj

theorem walk_lt_of_lists (hindex : ∀ x ∈ index, x.Lists t) :
    ∀ j ∈ walk t wanted index, j < t.middles.size := by
  apply walk_lt
  intro x hx p hpos hp j hj
  rw [hindex x hx p hpos hp] at hj
  exact (Tree.mem_occurrencesOf.mp hj).1

/-- Every plan gives what filtering all entries gives. -/
theorem drain_plan_eq (h : t.Consistent) (hfind : t.Findable)
    (hindex : ∀ x ∈ index, x.Lists t) (pattern : Triple) :
    (plan t (t.order.toCoords pattern) index).drain =
      t.entries.filter fun e => pattern.covers e.1 := by
  rw [Tree.entries_filter h, ← flatMap_walk h hfind hindex]
  exact drain_plan h (walk_lt_of_lists hindex)

/-- Where the minor id is free, an occurrence with the wanted middle id gives
its whole run. -/
theorem places_of_minor_eq_zero (hminor : wanted.minor = 0) (j : Nat) :
    places t wanted j = if wanted.middle == 0 ||
      t.middles.value j == wanted.middle then
      (t.run j).toList else [] := by
  have hwants : (start t wanted .scan none .empty).wants = fun _ => true := by
    funext i
    simp [wants, start, hminor]
  have hrun : (start t wanted .scan none .empty).runOf j = t.run j :=
    if_pos hminor
  have htrue :
      (t.run j).toList.takeWhile (fun _ => true) = (t.run j).toList := by
    rw [← filter_eq_takeWhile (List.pairwise_of_forall fun _ _ _ => rfl),
      List.filter_eq_self.mpr fun _ _ => rfl]
  unfold places
  dsimp only
  rw [hwants, hrun, htrue]
  rfl

/-- The pattern that covers all gives all entries, whether ids are found or not. -/
theorem drain_plan_any (h : t.Consistent) :
    (plan t .any index).drain = t.entries := by
  have hreach : ¬ t.outOfReach .any = true := by
    simp [Tree.outOfReach, Coords.any]
  have hwalk : walk t .any index = List.range t.middles.size := by
    unfold walk
    rw [if_neg hreach]
    rfl
  rw [drain_plan h (by rw [hwalk]; exact fun j => List.mem_range.mp), hwalk,
    funext (places_of_minor_eq_zero rfl)]
  show (((List.range t.middles.size).flatMap fun j => (t.run j).toList).map
    t.entry) = _
  rw [Tree.flatMap_run h]
  rfl

end Plan

end Cursor

end TripleStore
