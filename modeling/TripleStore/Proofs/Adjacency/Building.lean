import Mathlib.Data.List.GetD
import TripleStore.Proofs.Adjacency.Spans
import TripleStore.Proofs.Bitmap.Building
import TripleStore.Proofs.Outcome
import TripleStore.Proofs.Sequence.Packing
import TripleStore.Tree.Basic

/-!
# Building adjacency lists

An adjacency list made of ending bits and values holds them position by position
(`holds_of_level`), and one made of groups gives each key the values of its
group (`map_keySpan_of_build`).
-/

namespace TripleStore

theorem maxBits_eq : maxBits = 512 * 4294967295 := rfl

namespace Adjacency

variable {a : Adjacency}

/-- An adjacency list holds `values`, with `bits` to tell the last ones. -/
structure Holds (a : Adjacency) (bits : List Bool) (values : List UInt64) :
    Prop where
  length_bits : bits.length = a.size
  length_values : values.length = a.size
  bit : ∀ i < a.size, a.isLast i = bits.getD i false
  value : ∀ i (h : i < values.length), a.value i = values[i]

theorem size_le (a : Adjacency) : a.size ≤ maxBits := by
  rw [size_eq]
  exact a.bitmap.size_le

theorem keys_le (a : Adjacency) : a.keys ≤ a.size := by
  rw [keys_eq]
  exact countOnes_le _ _

/-- Positions and keys are numbers that a word has room for. -/
theorem toNat_toUInt64 {n : Nat} (h : n ≤ maxBits) : n.toUInt64.toNat = n := by
  rw [maxBits_eq] at h
  exact UInt64.toNat_ofNat_of_lt' (by rw [UInt64.size]; omega)

theorem ofParts_eq_ok {bitmap : Bitmap} {sequence : Sequence}
    (h : ofParts bitmap sequence = .ok a) :
    a.bitmap = bitmap ∧ a.sequence = sequence := by
  unfold ofParts at h
  split at h
  · split at h
    · cases h
      exact ⟨rfl, rfl⟩
    · cases h
  · cases h

theorem holds_of_ofParts {bitmap : Bitmap} {bits : List Bool}
    {values : List UInt64} (hbits : bitmap.Holds bits)
    (h : ofParts bitmap (.ofList values) = .ok a) :
    a.Holds bits values := by
  obtain ⟨hbitmap, hsequence⟩ := ofParts_eq_ok h
  have hsize : a.size = values.length := by
    rw [size, hsequence, Sequence.size_ofList]
  refine ⟨?_, hsize.symm, ?_, ?_⟩
  · rw [size_eq, hbitmap, hbits.size]
  · intro i hi
    rw [size_eq, hbitmap] at hi
    rw [isLast, hbitmap, hbits.bit i hi]
  · intro i hi
    rw [value, hsequence, Sequence.value_ofList hi]

/-- What is stored was made of a bitmap of the bits and a sequence of the values. -/
theorem parts_of_level {bits : List Bool} {values : List UInt64}
    (h : Tree.level bits values = .ok a) :
    ∃ bitmap, Bitmap.ofBits bits = .ok bitmap ∧
      ofParts bitmap (.ofList values) = .ok a := by
  unfold Tree.level at h
  cases hbitmap : Bitmap.ofBits bits with
  | error e =>
      rw [hbitmap] at h
      cases h
  | ok bitmap =>
      rw [hbitmap] at h
      change (ofParts bitmap (.ofList values)).mapError
        Error.construction = .ok a at h
      cases hparts : ofParts bitmap (.ofList values) with
      | error fault =>
          rw [hparts] at h
          cases h
      | ok b =>
          rw [hparts] at h
          cases h
          exact ⟨bitmap, rfl, hparts⟩

theorem holds_of_level {bits : List Bool} {values : List UInt64}
    (h : Tree.level bits values = .ok a) : a.Holds bits values := by
  obtain ⟨bitmap, hbitmap, hparts⟩ := parts_of_level h
  exact holds_of_ofParts (Bitmap.holds_of_ofBits hbitmap).1 hparts

/-- Lists with their bits can be stored if there are not too many of them. -/
theorem exists_level {bits : List Bool} {values : List UInt64}
    (hlength : bits.length = values.length)
    (hlast : bits ≠ [] → bits.getD (bits.length - 1) false = true)
    (hle : bits.length ≤ maxBits) :
    ∃ a, Tree.level bits values = .ok a := by
  obtain ⟨bitmap, hbitmap, hholds⟩ := Bitmap.ofBits_spec hle
  have hs : bitmap.size = (Sequence.ofList values).size := by
    rw [hholds.size, hlength, Sequence.size_ofList]
  have ht : bitmap.size ≠ 0 → bitmap.bit (bitmap.size - 1) = true := by
    intro hne
    rw [hholds.bit _ (by omega), hholds.size]
    rw [hholds.size] at hne
    exact hlast (List.ne_nil_of_length_pos (Nat.pos_of_ne_zero hne))
  refine ⟨⟨bitmap, .ofList values, hs, ht⟩, ?_⟩
  rw [Tree.level, hbitmap]
  show (ofParts bitmap (.ofList values)).mapError Error.construction = _
  rw [ofParts, dif_pos hs, dif_pos ht]
  rfl

theorem Holds.sequence_toList {bits : List Bool} {values : List UInt64}
    (h : a.Holds bits values) :
    a.sequence.toList = values := by
  apply List.ext_getElem
  · simpa [Sequence.toList, size] using h.length_values.symm
  · intro i h₁ h₂
    simpa [Sequence.toList, Adjacency.value] using h.value i h₂

theorem Holds.key {bits : List Bool} {values : List UInt64}
    (h : a.Holds bits values) {i : Nat} (hi : i ≤ a.size) :
    a.key i = countOnes (fun j => bits.getD j false) i + 1 := by
  rw [key_eq hi, countOnes_congr fun j hj => h.bit j (by omega)]

theorem Holds.keys {bits : List Bool} {values : List UInt64}
    (h : a.Holds bits values) :
    a.keys = countOnes (fun j => bits.getD j false) a.size := by
  rw [keys_eq, countOnes_congr fun j hj => h.bit j hj]

/-! ## Groups -/

/-- Where the values of the group behind the first `k` begin. -/
def groupStart (groups : List (List UInt64)) (k : Nat) : Nat :=
  (groups.take k).flatten.length

theorem length_groupBits {group : List UInt64} (h : group ≠ []) :
    (groupBits group).length = group.length := by
  have := List.length_pos_iff.mpr h
  rw [groupBits, List.length_append, List.length_replicate,
    List.length_singleton]
  omega

/-- Only the last bit of a group is set. -/
theorem countOnes_groupBits (group : List UInt64) (rest : List Bool) {j : Nat}
    (hj : j < group.length) :
    countOnes (fun i => (groupBits group ++ rest).getD i false) j = 0 := by
  have hzero : countOnes (fun i => (groupBits group ++ rest).getD i false) j =
      countOnes (fun _ => false) j := by
    apply countOnes_congr
    intro i hi
    rw [groupBits, List.append_assoc, List.getD_append _ _ _ _ (by simp; omega),
      List.getD_replicate _ (by omega)]
  rw [hzero]
  simp [countOnes, Nat.count_false]

theorem countOnes_group (group : List UInt64) (rest : List Bool)
    (h : group ≠ []) :
    countOnes (fun i => (groupBits group ++ rest).getD i false)
      group.length = 1 := by
  have hpos := List.length_pos_iff.mpr h
  have hlast :
      (groupBits group ++ rest).getD (group.length - 1) false = true := by
    rw [groupBits, List.append_assoc, List.getD_append_right _ _ _ _ (by simp)]
    simp
  have hsucc := countOnes_succ (fun i => (groupBits group ++ rest).getD i false)
    (group.length - 1)
  rwa [show group.length - 1 + 1 = group.length by omega, hlast,
    countOnes_groupBits group rest
      (show group.length - 1 < group.length by omega)] at hsucc

theorem groupStart_cons (g : List UInt64) (gs : List (List UInt64)) (k : Nat) :
    groupStart (g :: gs) (k + 1) = g.length + groupStart gs k := by
  simp [groupStart]

/-- As many ones as there are groups stand before a group's values. -/
theorem countOnes_groupStart {groups : List (List UInt64)}
    (hne : ∀ g ∈ groups, g ≠ []) {k j : Nat} (hk : k ≤ groups.length)
    (hj : j = 0 ∨ ∃ h : k < groups.length, j < groups[k].length) :
    countOnes (fun i => (groups.flatMap groupBits).getD i false)
      (groupStart groups k + j) = k := by
  induction groups generalizing k with
  | nil =>
      have hk0 : k = 0 := by simpa using hk
      rcases hj with rfl | ⟨h, _⟩
      · subst hk0
        simp [groupStart]
      · simp at h
  | cons g gs ih =>
      rw [List.flatMap_cons]
      cases k with
      | zero =>
          rcases hj with rfl | ⟨_, hj⟩
          · simp [groupStart]
          · simpa [groupStart]
              using countOnes_groupBits g (gs.flatMap groupBits) hj
      | succ k =>
          have hg : g ≠ [] := hne g List.mem_cons_self
          have hshift :
              (fun i => (groupBits g ++ gs.flatMap groupBits).getD
                (g.length + i) false) =
              fun i => (gs.flatMap groupBits).getD i false := by
            funext i
            rw [List.getD_append_right _ _ _ _
              (by rw [length_groupBits hg]; omega),
              length_groupBits hg, Nat.add_sub_cancel_left]
          rw [groupStart_cons, Nat.add_assoc, countOnes_add,
            countOnes_group g _ hg, hshift,
            ih (fun g hg => hne g (List.mem_cons_of_mem _ hg))
              (by simpa using hk)
              (by simpa using hj), Nat.add_comm]

theorem groupStart_succ {groups : List (List UInt64)} {k : Nat}
    (hk : k < groups.length) :
    groupStart groups (k + 1) = groupStart groups k + groups[k].length := by
  rw [groupStart, List.take_succ_eq_append_getElem hk, List.flatten_append,
    List.length_append, List.flatten_singleton, groupStart]

theorem groupStart_length (groups : List (List UInt64)) :
    groupStart groups groups.length = groups.flatten.length := by
  rw [groupStart, List.take_length]

theorem groupStart_mono (groups : List (List UInt64)) :
    Monotone (groupStart groups) := by
  intro q r hqr
  obtain ⟨d, rfl⟩ := Nat.exists_eq_add_of_le hqr
  rw [groupStart, groupStart, List.take_add, List.flatten_append,
    List.length_append]
  exact Nat.le_add_right _ _

/-- A list that has each value of each group where the group's values begin is
made of the groups. -/
theorem eq_flatten_of_groupStart {groups : List (List UInt64)}
    {values : List UInt64} (hlength : values.length = groups.flatten.length)
    (h : ∀ q (hq : q < groups.length), ∀ j < groups[q].length,
      values[groupStart groups q + j]? = groups[q][j]?) :
    values = groups.flatten := by
  induction groups generalizing values with
  | nil => simpa using hlength
  | cons g gs ih =>
      rw [List.flatten_cons, List.length_append] at hlength
      have hg : values.take g.length = g := by
        apply List.ext_getElem?
        intro j
        rw [List.getElem?_take]
        split
        · next hj => simpa [groupStart] using h 0 (Nat.succ_pos _) j hj
        · next hj => rw [List.getElem?_eq_none (Nat.not_lt.mp hj)]
      have hgs : values.drop g.length = gs.flatten := by
        apply ih
        · rw [List.length_drop, hlength, Nat.add_sub_cancel_left]
        · intro q hq j hj
          have := h (q + 1) (Nat.succ_lt_succ hq) j hj
          rwa [groupStart_cons, Nat.add_assoc, ← List.getElem?_drop] at this
      rw [← List.take_append_drop g.length values, hg, hgs, List.flatten_cons]

theorem groupStart_le {groups : List (List UInt64)}
    (h : a.Holds (groups.flatMap groupBits) groups.flatten) (k : Nat) :
    groupStart groups k ≤ a.size := by
  have hsplit :
      groups.flatten.length = groupStart groups k +
        (groups.drop k).flatten.length := by
    rw [groupStart, ← List.length_append, ← List.flatten_append,
      List.take_append_drop]
  rw [← h.length_values]
  omega

section Groups

variable {groups : List (List UInt64)} (hne : ∀ g ∈ groups, g ≠ [])
  (h : a.Holds (groups.flatMap groupBits) groups.flatten)
include hne h

theorem keys_of_groups : a.keys = groups.length := by
  rw [h.keys, ← h.length_values, ← groupStart_length]
  exact countOnes_groupStart hne (Nat.le_refl _) (.inl rfl)

theorem key_of_group {k j : Nat} (hk : k < groups.length)
    (hj : j < groups[k].length) (hle : groupStart groups k + j ≤ a.size) :
    a.key (groupStart groups k + j) = k + 1 := by
  rw [h.key hle, countOnes_groupStart hne (Nat.le_of_lt hk) (.inr ⟨hk, hj⟩)]

/-- The values of a key begin where its group does. -/
theorem bound_eq_groupStart {k : Nat} (hk : k ≤ groups.length) :
    a.bound k = groupStart groups k := by
  have hsize := groupStart_le h
  apply bound_eq (by rwa [keys_of_groups hne h]) (hsize k)
  · intro i hi
    cases k with
    | zero => simp [groupStart] at hi
    | succ k =>
        -- the position is not behind the last one of group `k`
        have hpos := List.length_pos_iff.mpr
          (hne _ (List.getElem_mem (show k < groups.length from hk)))
        have hsucc := groupStart_succ (show k < groups.length from hk)
        have hlast := hsize (k + 1)
        rw [← key_of_group hne h (j := groups[k].length - 1) hk
          (by omega) (by omega)]
        exact key_mono (by omega) (by omega)
  · intro i hi hlt
    have hk' : k < groups.length := by
      by_contra hge
      rw [show k = groups.length by omega, groupStart_length,
        h.length_values] at hi
      omega
    have hpos := List.length_pos_iff.mpr (hne _ (List.getElem_mem hk'))
    have hkey := key_of_group hne h (j := 0) hk' hpos
      (by have := hsize k; omega)
    have hmono := key_mono (a := a) (show groupStart groups k + 0 ≤ i by omega)
      (by omega)
    omega

/-- A key has the values of its group. -/
theorem map_keySpan_of_groups {k : Nat} (hk : k < groups.length) :
    (a.keySpan (k + 1)).toList.map a.value = groups[k] := by
  have hsucc := groupStart_succ hk
  rw [keySpan_succ, bound_eq_groupStart hne h (Nat.le_of_lt hk),
    bound_eq_groupStart hne h hk, Span.toList, Span.size]
  dsimp only
  rw [hsucc, Nat.add_sub_cancel_left]
  apply List.ext_getElem
  · simp
  · intro i _ hi
    have hle := groupStart_le h (k + 1)
    rw [List.getElem_map, List.getElem_range', Nat.one_mul,
      h.value _ (by rw [h.length_values]; omega)]
    have hsplit :
        groups.flatten = (groups.take k).flatten ++
          (groups[k] ++ (groups.drop (k + 1)).flatten) := by
      rw [← List.flatten_cons, ← List.flatten_append, List.getElem_cons_drop,
        List.take_append_drop]
    simp only [hsplit]
    rw [List.getElem_append_right (by simp [groupStart])]
    simp only [groupStart, Nat.add_sub_cancel_left]
    exact List.getElem_append_left hi

end Groups

/-- Groups that were stored are not empty, and their bits and values were put
together. -/
theorem level_of_build {groups : List (List UInt64)}
    (h : build groups = .ok a) :
    (∀ g ∈ groups, g ≠ []) ∧
    Tree.level (groups.flatMap groupBits) groups.flatten = .ok a := by
  unfold build at h
  split at h
  · obtain ⟨_, -, h⟩ := bind_eq_ok.mp h
    cases h
  · next hnone =>
      refine ⟨?_, h⟩
      intro g hg hnil
      have hnone := List.findIdx?_eq_none_iff.mp hnone g hg
      simp [hnil] at hnone

theorem holds_of_build {groups : List (List UInt64)}
    (h : build groups = .ok a) :
    (∀ g ∈ groups, g ≠ []) ∧
    a.Holds (groups.flatMap groupBits) groups.flatten :=
  (level_of_build h).imp_right holds_of_level

theorem length_flatMap_groupBits {groups : List (List UInt64)}
    (hne : ∀ g ∈ groups, g ≠ []) :
    (groups.flatMap groupBits).length = groups.flatten.length := by
  rw [List.length_flatMap, List.length_flatten]
  congr 1
  exact List.map_congr_left fun g hg => length_groupBits (hne g hg)

/-- The last bit of the last group is set. -/
theorem getD_flatMap_groupBits (groups : List (List UInt64))
    (h : groups.flatMap groupBits ≠ []) :
    (groups.flatMap groupBits).getD ((groups.flatMap groupBits).length - 1)
      false = true := by
  rcases List.eq_nil_or_concat' groups with rfl | ⟨front, g, rfl⟩
  · exact absurd rfl h
  · rw [List.flatMap_append, List.flatMap_singleton, groupBits,
      ← List.append_assoc, List.length_append]
    simp

/-- Groups that are not empty can be stored if they do not have too many values. -/
theorem exists_build {groups : List (List UInt64)} (hne : ∀ g ∈ groups, g ≠ [])
    (hle : groups.flatten.length ≤ maxBits) : ∃ a, build groups = .ok a := by
  have hlength := length_flatMap_groupBits hne
  have hnone : groups.findIdx? List.isEmpty = none :=
    List.findIdx?_eq_none_iff.mpr fun g hg =>
      List.isEmpty_eq_false_iff.mpr (hne g hg)
  obtain ⟨a, ha⟩ := exists_level hlength (getD_flatMap_groupBits groups)
    (hlength.symm ▸ hle)
  refine ⟨a, ?_⟩
  rw [build, hnone]
  exact ha

end Adjacency

end TripleStore
