import TripleStore.Proofs.Adjacency.Building
import TripleStore.Proofs.Bitmap.Counting

/-!
# Keys share out the positions

Three ways lead through an adjacency list: from a key to its span, from a
position to its key, and along all positions with a running key. They agree, and
the spans of the keys lie side by side over all positions (`partition_exact`). A
list made of groups gives each key the values of its group.
-/

namespace TripleStore

/-- None of the spans is empty, and each begins where the one before it ends:
the first at `lo`, and at `hi` the last one ends. -/
def Span.Tiles (lo hi : Nat) : List Span → Prop
  | [] => lo = hi
  | s :: spans => s.start = lo ∧ s.start < s.stop ∧ Tiles s.stop hi spans

namespace Adjacency

variable {a : Adjacency}

theorem keys_eq_count (a : Adjacency) : a.keys = a.bitmap.toList.count true :=
  a.bitmap.count_toList.symm

/-! ## Spans and keys -/

theorem exists_span_iff {k : Nat} :
    (∃ s, a.span k = .ok s) ↔ 1 ≤ k ∧ k ≤ a.keys := by
  constructor
  · rintro ⟨s, hs⟩
    exact (span_eq_ok.mp hs).1
  · intro hk
    exact ⟨_, span_eq_ok.mpr ⟨hk, rfl⟩⟩

/-- The spans of some keys in a row lie side by side. -/
theorem tiles_keySpan {k n : Nat} (h : k + n ≤ a.keys) :
    Span.Tiles (a.bound k) (a.bound (k + n))
      ((List.range' (k + 1) n).map a.keySpan) := by
  induction n generalizing k with
  | zero => rfl
  | succ n ih =>
      rw [List.range'_succ, List.map_cons, keySpan_succ]
      refine ⟨rfl, bound_lt (show k < a.keys by omega), ?_⟩
      rw [Nat.add_comm n, ← Nat.add_assoc]
      exact ih (k := k + 1) (by omega)

theorem mapM_span (a : Adjacency) :
    (List.range' 1 a.keys).mapM a.span =
      .ok ((List.range' 1 a.keys).map a.keySpan) := by
  refine mapM_eq_ok fun k hk => span_eq_ok.mpr ⟨?_, rfl⟩
  rw [List.mem_range'_1] at hk
  omega

/-- A position is in the span of its key and in no other. -/
theorem keyOf_eq_ok_iff {i k : Nat} :
    a.keyOf i = .ok k ↔ ∃ s, a.span k = .ok s ∧ i ∈ s.toList := by
  rw [keyOf_eq_ok]
  constructor
  · rintro ⟨hi, rfl⟩
    obtain ⟨k, hkey⟩ := Nat.exists_eq_add_one.mpr (a.key_pos i)
    have hk : k < a.keys := Nat.lt_of_succ_le (hkey.symm.le.trans (key_le hi))
    exact ⟨_, span_eq_ok.mpr ⟨⟨a.key_pos i, key_le hi⟩, rfl⟩,
      hkey ▸ (mem_keySpan_iff hk).mpr ⟨hi, hkey⟩⟩
  · rintro ⟨s, hs, hi⟩
    obtain ⟨⟨hpos, hk⟩, rfl⟩ := span_eq_ok.mp hs
    obtain ⟨n, rfl⟩ := Nat.exists_eq_add_one.mpr hpos
    exact (mem_keySpan_iff hk).mp hi

/-- Walking along the positions gives what is asked for at each of them. -/
theorem mapM_pair (a : Adjacency) :
    (List.range a.size).mapM (fun i => do return (← a.keyOf i, ← a.valueAt i)) =
      .ok a.toList := by
  rw [toList_eq]
  refine mapM_eq_ok fun i hi => ?_
  have hi := List.mem_range.mp hi
  rw [keyOf_eq_ok.mpr ⟨hi, rfl⟩, valueAt_eq_ok.mpr ⟨hi, rfl⟩]
  rfl

/-! ## Groups -/

variable {groups : List (List UInt64)}

theorem build_of_empty_group (h : [] ∈ groups) :
    ∃ fault, build groups = .error (.construction fault) := by
  rw [build]
  split
  · next i _ =>
      rcases Nat.lt_or_ge maxBits
        ((groups.take i).flatMap groupBits).length with hmany | hfew
      · exact ⟨_, by rw [Bitmap.ofBits_error hmany]; rfl⟩
      · obtain ⟨b, hb, -⟩ := Bitmap.ofBits_spec hfew
        exact ⟨_, by rw [hb]; rfl⟩
  · next hnone =>
      exact absurd (List.findIdx?_eq_none_iff.mp hnone [] h) (by simp)

theorem build_of_many_values (hne : [] ∉ groups)
    (h : maxBits < groups.flatten.length) :
    build groups = .error (.construction (.tooManyBits maxBits)) := by
  have hgroups : ∀ g ∈ groups, g ≠ [] := fun g hg => ne_of_mem_of_not_mem hg hne
  have hnone : groups.findIdx? List.isEmpty = none :=
    List.findIdx?_eq_none_iff.mpr fun g hg =>
      List.isEmpty_eq_false_iff.mpr (hgroups g hg)
  rw [build, hnone]
  dsimp only
  rw [Bitmap.ofBits_error (by rwa [length_flatMap_groupBits hgroups])]
  rfl

/-- Groups are refused only for one that is empty or if they have too many
values. -/
theorem build_eq_error_iff :
    (∃ fault, build groups = .error (.construction fault)) ↔
    [] ∈ groups ∨ maxBits < groups.flatten.length := by
  constructor
  · rintro ⟨fault, h⟩
    by_contra hnot
    rw [not_or, Nat.not_lt] at hnot
    obtain ⟨a, ha⟩ := exists_build
      (fun g hg => ne_of_mem_of_not_mem hg hnot.1) hnot.2
    rw [ha] at h
    cases h
  · intro h
    by_cases hempty : [] ∈ groups
    · exact build_of_empty_group hempty
    · exact ⟨_, build_of_many_values hempty (h.resolve_left hempty)⟩

/-- The lists of the keys are the groups. -/
theorem mapM_values_of_build (h : build groups = .ok a) :
    (List.range' 1 groups.length).mapM
      (fun k => do (← a.span k).toList.mapM a.valueAt) = .ok groups := by
  obtain ⟨hne, hholds⟩ := holds_of_build h
  have hkeys := keys_of_groups hne hholds
  have hlists :
      (List.range' 1 groups.length).map
        (fun k => (a.keySpan k).toList.map a.value) = groups := by
    apply List.ext_getElem
    · simp
    · intro k _ hk
      rw [List.getElem_map, List.getElem_range', Nat.one_mul, Nat.add_comm]
      exact map_keySpan_of_groups hne hholds hk
  conv_rhs => rw [← hlists]
  refine mapM_eq_ok fun k hk => ?_
  obtain ⟨hpos, hlt⟩ := List.mem_range'_1.mp hk
  obtain ⟨n, rfl⟩ := Nat.exists_eq_add_one.mpr hpos
  have hn : n < a.keys := by omega
  rw [span_eq_ok.mpr ⟨⟨hpos, hn⟩, rfl⟩]
  exact mapM_eq_ok fun i hi =>
    valueAt_eq_ok.mpr ⟨((mem_keySpan_iff hn).mp hi).1, rfl⟩

/-- An adjacency list has as many keys as its bitmap has ones, and just these
have spans, which lie side by side from 0 up to the size, none of them empty. A
position is in the span of its key, and the pairs are the keys and values of the
positions in their order. Groups make an adjacency list unless one is empty or a
bitmap has no room for the values, and then the lists of the keys are the
groups. -/
theorem partition_exact (a : Adjacency) (groups : List (List UInt64)) :
    a.keys = a.bitmap.toList.count true ∧
    (∀ k, (∃ s, a.span k = .ok s) ↔ 1 ≤ k ∧ k ≤ a.keys) ∧
    (∃ spans, (List.range' 1 a.keys).mapM a.span = .ok spans ∧
      Span.Tiles 0 a.size spans) ∧
    (∀ i k, a.keyOf i = .ok k ↔ ∃ s, a.span k = .ok s ∧ i ∈ s.toList) ∧
    (List.range a.size).mapM (fun i => do return (← a.keyOf i, ← a.valueAt i)) =
      .ok a.toList ∧
    ((∃ fault, build groups = .error (.construction fault)) ↔
      [] ∈ groups ∨ maxBits < groups.flatten.length) ∧
    (¬ ([] ∈ groups ∨ maxBits < groups.flatten.length) →
      ∃ b, build groups = .ok b ∧
      b.keys = groups.length ∧ (List.range' 1 groups.length).mapM
        (fun k => do (← b.span k).toList.mapM b.valueAt) = .ok groups) := by
  refine ⟨a.keys_eq_count, fun k => exists_span_iff, ⟨_, a.mapM_span, ?_⟩,
    fun i k => keyOf_eq_ok_iff,
    a.mapM_pair, build_eq_error_iff, fun hnot => ?_⟩
  · have htiles := tiles_keySpan (a := a) (k := 0) (n := a.keys)
      (Nat.le_of_eq (Nat.zero_add _))
    rwa [Nat.zero_add, bound_zero, bound_keys] at htiles
  · rw [not_or, Nat.not_lt] at hnot
    obtain ⟨b, hb⟩ := exists_build
      (fun g hg => ne_of_mem_of_not_mem hg hnot.1) hnot.2
    obtain ⟨hne, hholds⟩ := holds_of_build hb
    exact ⟨b, hb, keys_of_groups hne hholds, mapM_values_of_build hb⟩

theorem partition_exact_three :
    ∃ a, build [[4, 7, 9], [2], [1, 8]] = .ok a ∧ a.keys = 3 ∧
    (∃ spans, (List.range' 1 3).mapM a.span = .ok spans ∧
      Span.Tiles 0 a.size spans) ∧
    (List.range' 1 3).mapM (fun k => do (← a.span k).toList.mapM a.valueAt) =
      .ok [[4, 7, 9], [2], [1, 8]] ∧
    ∃ fault, build [[1], []] = .error (.construction fault) := by
  have heval : (build [[4, 7, 9], [2], [1, 8]]).toOption.isSome = true := by
    decide +kernel
  obtain ⟨a, ha⟩ := Option.isSome_iff_exists.mp heval
  have ha := toOption_eq_some.mp ha
  obtain ⟨b, hb, hkeys, hlists⟩ :=
    (partition_exact a [[4, 7, 9], [2], [1, 8]]).2.2.2.2.2.2 (by decide)
  rw [ha] at hb
  cases hb
  obtain ⟨-, -, hspans, -, -, hrefused, -⟩ := partition_exact a [[1], []]
  rw [hkeys] at hspans
  exact ⟨a, ha, hkeys, hspans, hlists, hrefused.mpr (.inl (by decide))⟩

/-- One list of zeros, none of them missing, with one more than a bitmap has
room for. -/
theorem build_of_large_group :
    build [List.replicate (maxBits + 1) 0] =
      .error (.construction (.tooManyBits maxBits)) ∧
      [] ∉ [List.replicate (maxBits + 1) (0 : UInt64)] := by
  have hne : [] ∉ [List.replicate (maxBits + 1) (0 : UInt64)] := by
    rw [List.mem_singleton, List.replicate_succ]
    exact List.cons_ne_nil _ _ ∘ Eq.symm
  refine ⟨build_of_many_values hne ?_, hne⟩
  rw [List.flatten_singleton, List.length_replicate]
  exact Nat.lt_succ_self maxBits

end Adjacency

end TripleStore
