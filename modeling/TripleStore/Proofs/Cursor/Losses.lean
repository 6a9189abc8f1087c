import TripleStore.Proofs.Cursor.Completeness

/-!
# What a walk can miss

At each occurrence a walk picks some of the positions that the pattern covers.
So if it comes out with as many as there are, it has missed none, and then every
id is found where it stands (`minors_of_length`, `middles_of_length`).
-/

namespace TripleStore

theorem length_flatMap_le {α β : Type} {f g : α → List β} {l : List α}
    (hsub : ∀ a ∈ l, (f a).Sublist (g a)) :
    (l.flatMap f).length ≤ (l.flatMap g).length := by
  induction l with
  | nil => exact Nat.le_refl _
  | cons a l ih =>
      obtain ⟨ha, hl⟩ := List.forall_mem_cons.mp hsub
      rw [List.flatMap_cons, List.flatMap_cons, List.length_append,
        List.length_append]
      exact Nat.add_le_add ha.length_le (ih hl)

/-- Parts that are no longer than the wholes together are the wholes. -/
theorem eq_of_length_flatMap {α β : Type} {f g : α → List β} {l : List α}
    (hsub : ∀ a ∈ l, (f a).Sublist (g a))
    (hlength : (l.flatMap f).length = (l.flatMap g).length) :
    ∀ a ∈ l, f a = g a := by
  induction l with
  | nil => simp
  | cons a l ih =>
      obtain ⟨ha, hl⟩ := List.forall_mem_cons.mp hsub
      rw [List.flatMap_cons, List.flatMap_cons, List.length_append,
        List.length_append] at hlength
      have hhead := ha.length_le
      have htail := length_flatMap_le hl
      exact List.forall_mem_cons.mpr ⟨ha.eq_of_length (by omega),
        ih hl (by omega)⟩

/-- What is taken from the front of ascending positions is all that stands
before it there. -/
theorem of_mem_takeWhile {p : Nat → Bool} {l : List Nat}
    (hl : l.Pairwise (· < ·)) {i m : Nat} (hi : i ∈ l.takeWhile p) (hm : m ∈ l)
    (hmi : m ≤ i) : p m = true := by
  induction l with
  | nil => cases hi
  | cons a l ih =>
      obtain ⟨ha, hl⟩ := List.pairwise_cons.mp hl
      rw [List.takeWhile_cons] at hi
      split at hi
      · next hpa =>
          rcases List.mem_cons.mp hm with rfl | hml
          · exact hpa
          · rcases List.mem_cons.mp hi with rfl | hil
            · exact absurd (ha m hml) (by omega)
            · exact ih hl hil hml
      · cases hi

/-- Of ascending positions, fewer are a selection. -/
theorem sublist_of_ascending {l m : List Nat} (hl : l.Pairwise (· < ·))
    (hm : m.Pairwise (· < ·)) (hsub : l ⊆ m) : l.Sublist m :=
  List.sublist_of_subperm_of_pairwise
    (List.subperm_of_subset hl.nodup hsub) hl hm

/-- If one block is as long as all blocks together, there is no other. -/
theorem eq_of_length_eq {α : Type} {f : Nat → List α} {l : List Nat}
    (hne : ∀ j ∈ l, f j ≠ []) {i j : Nat} (hi : i ∈ l) (hj : j ∈ l)
    (hlength : (f i).length = (l.flatMap f).length) : j = i := by
  have hperm := (List.perm_cons_erase hi).flatMap_right f
  rw [List.flatMap_cons] at hperm
  have hrest := hperm.length_eq
  rw [List.length_append] at hrest
  have hnil : (l.erase i).flatMap f = [] :=
    List.eq_nil_of_length_eq_zero (by omega)
  by_contra hji
  exact hne j hj (List.flatMap_eq_nil_iff.mp hnil j
    ((List.mem_erase_of_ne hji).mpr hj))

namespace Cursor

variable {t : Tree}

/-- At an occurrence with the major id, only covered positions are picked. -/
theorem places_sublist {c : Cursor} (h : c.tree.Consistent) {j : Nat}
    (hj : j < c.tree.middles.size) (hreaches : c.reaches j = true) :
    (places c.tree c.wanted j).Sublist (c.tree.covered c.wanted j) := by
  rw [places_eq, covered_eq h hj, hreaches, Bool.true_and]
  split
  swap
  · exact List.Sublist.refl _
  apply sublist_of_ascending
    ((Span.pairwise_toList _).sublist (List.takeWhile_sublist _))
    ((Span.pairwise_toList _).filter _)
  intro i hi
  exact List.mem_filter.mpr ⟨runOf_subset h hj (List.takeWhile_subset _ hi),
    List.all_eq_true.mp List.all_takeWhile i hi⟩

/-- Where all that is covered is picked, the search for a triple ends at the
first of a stretch with its minor id. -/
theorem firstOf_le_of_places_eq {c : Cursor} (h : c.tree.Consistent) {i j : Nat}
    (hj : j < c.tree.middles.size) (hi : i ∈ (c.tree.run j).toList)
    (hmeets : (c.reaches j && c.admits j) = true) (hminor : c.wanted.minor ≠ 0)
    (hvalue : c.tree.minors.value i = c.wanted.minor)
    (hplaces : places c.tree c.wanted j = c.tree.covered c.wanted j) :
    c.tree.minors.firstOf i ≤ i ∧ ∀ m, c.tree.minors.firstOf i ≤ m → m ≤ i →
      c.tree.minors.value m = c.wanted.minor := by
  have htaken : i ∈ (c.runOf j).toList.takeWhile c.wants := by
    rw [places_eq, if_pos (Bool.and_eq_true_iff.mp hmeets).2, covered_eq h hj,
      if_pos hmeets] at hplaces
    rw [hplaces]
    exact List.mem_filter.mpr ⟨hi, (wants_iff hminor i).mpr hvalue⟩
  rw [runOf_eq_firstOf h hj hi hminor hvalue] at htaken
  refine ⟨(Span.mem_toList.mp (List.takeWhile_subset _ htaken)).1,
    fun m hm hmi => ?_⟩
  have hspan :
      m ∈ (⟨c.tree.minors.firstOf i, (c.tree.run j).stop⟩ : Span).toList :=
    Span.mem_toList.mpr ⟨hm, Nat.lt_of_le_of_lt hmi (Span.mem_toList.mp hi).2⟩
  exact (wants_iff hminor m).mp
    (of_mem_takeWhile (Span.pairwise_toList _) htaken hspan hmi)

/-- Each pattern gives as many triples as it covers, through some index or
without one. -/
def Exhaustive (t : Tree) : Prop :=
  ∀ wanted, ∃ index, ((walk t wanted index).flatMap (places t wanted)).length =
    ((List.range t.middles.size).flatMap (t.covered wanted)).length

/-- The minor ids are found: each is looked for alone, at all occurrences. -/
theorem Exhaustive.minors (hall : Exhaustive t) (h : t.Consistent) :
    ∀ i < t.size, t.minors.value i ≠ 0 → t.minors.firstOf i ≤ i ∧
      ∀ m, t.minors.firstOf i ≤ m → m ≤ i →
      t.minors.value m = t.minors.value i := by
  intro i hi hvalue
  obtain ⟨j, hj, hkey, -, -⟩ :=
    Adjacency.exists_key (show i < t.minors.size from hi)
  have hmem : i ∈ (t.run j).toList :=
    (Adjacency.mem_keySpan_iff hj).mpr ⟨hi, hkey⟩
  rw [h.groups] at hj
  obtain ⟨index, hlength⟩ := hall ⟨0, 0, t.minors.value i⟩
  have hwalk :
      walk t ⟨0, 0, t.minors.value i⟩ index = List.range t.middles.size := by
    have hmax := Adjacency.value_le_maximum (show i < t.minors.size from hi)
    rw [← h.maxMinor] at hmax
    unfold walk
    rw [if_neg (not_outOfReach_iff.mpr ⟨Nat.zero_le _, Nat.zero_le _, hmax⟩)]
    rfl
  rw [hwalk] at hlength
  -- no occurrence can make up for what another one misses
  have hplaces := eq_of_length_flatMap (fun j hj => places_sublist
    (c := start t ⟨0, 0, t.minors.value i⟩ .scan none .empty) h
    (List.mem_range.mp hj) rfl) hlength j
      (List.mem_range.mpr hj)
  exact firstOf_le_of_places_eq
    (c := start t ⟨0, 0, t.minors.value i⟩ .scan none .empty) h hj hmem rfl
    hvalue rfl hplaces

/-- The occurrence has the major and the middle id that are asked for. -/
def meets (t : Tree) (wanted : Coords) (j : Nat) : Bool :=
  (wanted.major == 0 || t.middles.key j == wanted.major.toNat) &&
    (wanted.middle == 0 || t.middles.value j == wanted.middle)

/-- Where the minor id is free, an occurrence is covered as a whole or not at
all. -/
theorem flatMap_covered (h : t.Consistent) {wanted : Coords}
    (hminor : wanted.minor = 0) :
    (List.range t.middles.size).flatMap (t.covered wanted) =
      ((List.range t.middles.size).filter (meets t wanted)).flatMap fun j =>
        (t.run j).toList := by
  have hcovered : ∀ j ∈ List.range t.middles.size, t.covered wanted j =
      if meets t wanted j then (t.run j).toList else [] := by
    intro j hj
    have hwants : ∀ i, (start t wanted .scan none .empty).wants i = true :=
      fun i => by
        simp [wants, start, hminor]
    have h := covered_eq (c := start t wanted .scan none .empty) h
      (List.mem_range.mp hj)
    rwa [List.filter_eq_self.mpr fun i _ => hwants i] at h
  rw [List.flatMap_congr hcovered,
    ← flatMap_filter_of_nil (p := meets t wanted) fun j _ hj => if_neg hj]
  apply List.flatMap_congr
  intro j hj
  exact if_pos (List.mem_filter.mp hj).2

/-- The middle ids are found: each is looked for under its major id. -/
theorem Exhaustive.middles (hall : Exhaustive t) (h : t.Consistent) :
    ∀ j < t.middles.size, t.middles.value j ≠ 0 → t.middles.firstOf j = j := by
  intro j hj hvalue
  obtain ⟨k, hk, hkey, -, -⟩ := Adjacency.exists_key hj
  have hmajor := key_toUInt64 hj
  have hx : (t.middles.key j).toUInt64 ≠ 0 := by
    intro hzero
    rw [hzero, hkey] at hmajor
    cases hmajor
  obtain ⟨index, hlength⟩ :=
    hall ⟨(t.middles.key j).toUInt64, t.middles.value j, 0⟩
  have hwalk : walk t ⟨(t.middles.key j).toUInt64, t.middles.value j, 0⟩ index =
      (t.middles.find? (t.middles.keySpan (k + 1))
        (t.middles.value j)).toList := by
    have hmax := Adjacency.value_le_maximum hj
    rw [← h.maxMiddle] at hmax
    unfold walk
    rw [if_neg (not_outOfReach_iff.mpr
      ⟨by rw [hmajor]; exact Adjacency.key_le hj, hmax, Nat.zero_le _⟩),
      if_pos hx]
    dsimp only
    rw [if_neg hvalue, hmajor, hkey]
  rw [hwalk, flatMap_covered h rfl] at hlength
  have hmem : ∀ i < t.middles.size, t.middles.key i = k + 1 →
      t.middles.value i = t.middles.value j →
      i ∈ (List.range t.middles.size).filter
        (meets t ⟨(t.middles.key j).toUInt64, t.middles.value j, 0⟩) := by
    intro i hi hik hiv
    rw [List.mem_filter, List.mem_range]
    refine ⟨hi, ?_⟩
    rw [meets]
    dsimp only
    rw [hmajor, hkey, hik, hiv, beq_self_eq_true, beq_self_eq_true,
      Bool.or_true, Bool.or_true]
    rfl
  cases hfound : t.middles.find? (t.middles.keySpan (k + 1))
    (t.middles.value j) with
  | none =>
      -- nothing is found, although the occurrence itself has triples
      rw [hfound] at hlength
      have hnil := List.eq_nil_of_length_eq_zero hlength.symm
      exact absurd (List.flatMap_eq_nil_iff.mp hnil j (hmem j hj hkey rfl))
        (Tree.run_ne_nil h hj)
  | some i =>
      -- all that is covered stands at the occurrence found, so this is the only one
      obtain ⟨hi, hik, hiv⟩ := Adjacency.find?_eq_some hk hfound
      rw [hfound, Option.toList_some, List.flatMap_singleton,
        places_of_minor_eq_zero rfl, if_pos (by simp [hiv])] at hlength
      obtain rfl : j = i := eq_of_length_eq (fun m hm => Tree.run_ne_nil h
        (List.mem_range.mp (List.mem_filter.mp hm).1)) (hmem i hi hik hiv)
          (hmem j hj hkey rfl) hlength
      rw [Adjacency.find?] at hfound
      split at hfound
      · rw [Adjacency.firstOf, hkey]
        exact Option.some.inj hfound
      · cases hfound

theorem Exhaustive.findable (hall : Exhaustive t) (h : t.Consistent) :
    t.Findable :=
  ⟨hall.middles h, hall.minors h⟩

end Cursor

end TripleStore
