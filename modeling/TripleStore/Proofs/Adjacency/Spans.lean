import TripleStore.Adjacency
import TripleStore.Proofs.Bitmap.RankSelect

/-!
# Spans of keys

The positions of an adjacency list are cut at the bounds between its keys: key
`k + 1` owns those from `bound k` up to `bound (k + 1)`, which are the positions
whose key it is (`mem_keySpan_iff`). No span is empty, and side by side they are
all positions (`flatMap_keySpan`).
-/

namespace TripleStore

theorem Span.mem_toList {s : Span} {i : Nat} :
    i ∈ s.toList ↔ s.start ≤ i ∧ i < s.stop := by
  rw [Span.toList, List.mem_range'_1, Span.size]
  omega

namespace Adjacency

variable {a : Adjacency}

/-- The position after the values of the first `k` keys. -/
def bound (a : Adjacency) (k : Nat) : Nat := if k = 0 then 0 else a.stop k

theorem keySpan_succ (a : Adjacency) (k : Nat) :
    a.keySpan (k + 1) = ⟨a.bound k, a.bound (k + 1)⟩ := by
  unfold keySpan bound
  by_cases h : k = 0 <;> simp [h]

theorem span_eq_ok {k : Nat} {s : Span} :
    a.span k = .ok s ↔ (1 ≤ k ∧ k ≤ a.keys) ∧ s = a.keySpan k := by
  rw [span]
  split
  · next hout =>
      constructor
      · intro h
        cases h
      · rintro ⟨hin, -⟩
        omega
  · next hin =>
      rw [Except.ok.injEq, eq_comm]
      exact ⟨fun h => ⟨by omega, h⟩, And.right⟩

theorem size_eq (a : Adjacency) : a.size = a.bitmap.size := a.sizes_eq.symm

theorem keys_eq (a : Adjacency) : a.keys = countOnes a.isLast a.size := by
  rw [keys, Bitmap.ones_eq, size_eq]
  rfl

theorem key_eq {i : Nat} (h : i ≤ a.size) :
    a.key i = countOnes a.isLast i + 1 := by
  rw [size_eq] at h
  rw [key, Bitmap.rankBefore_of_le h]
  rfl

theorem keyOf_eq_ok {i k : Nat} :
    a.keyOf i = .ok k ↔ i < a.size ∧ a.key i = k := by
  rw [keyOf]
  split
  · next hi => simp [hi]
  · next hi => simp [hi]

theorem valueAt_eq_ok {i : Nat} {v : UInt64} :
    a.valueAt i = .ok v ↔ i < a.size ∧ a.value i = v := by
  rw [valueAt, Sequence.get, ← size]
  split
  · next hi => simp [hi, value]
  · next hi => simp [hi]

theorem key_mono {i j : Nat} (hij : i ≤ j) (hj : j ≤ a.size) :
    a.key i ≤ a.key j := by
  rw [key_eq hj, key_eq (Nat.le_trans hij hj)]
  exact Nat.succ_le_succ (countOnes_mono _ hij)

/-- Behind the last value of a key comes the next key. -/
theorem key_succ {i : Nat} (h : i < a.size) :
    a.key (i + 1) = if a.isLast i then a.key i + 1 else a.key i := by
  rw [key_eq h, key_eq (Nat.le_of_lt h), countOnes_succ]
  cases a.isLast i <;> rfl

theorem key_zero (a : Adjacency) : a.key 0 = 1 := by
  rw [key_eq (Nat.zero_le _)]
  simp [countOnes]

theorem key_pos (a : Adjacency) (i : Nat) : 0 < a.key i := Nat.succ_pos _

/-- The last value has the largest key. -/
theorem keys_eq_key {n : Nat} (h : a.size = n + 1) : a.keys = a.key n := by
  have hlast : a.isLast n = true := by
    have hne : a.bitmap.size = n + 1 := by rw [← size_eq, h]
    have hend := a.terminated (by rw [hne]; exact Nat.succ_ne_zero n)
    rwa [hne, Nat.add_sub_cancel] at hend
  rw [key_eq (by omega), keys_eq, h, countOnes_succ, hlast]
  rfl

theorem key_le {i : Nat} (h : i < a.size) : a.key i ≤ a.keys := by
  obtain ⟨n, hn⟩ := Nat.exists_eq_add_one.mpr (Nat.zero_lt_of_lt h)
  rw [keys_eq_key hn]
  exact key_mono (by omega) (by omega)

/-- Below a bound stand the values of the keys up to it. -/
theorem lt_bound_iff {i k : Nat} (hi : i < a.size) (hk : k ≤ a.keys) :
    i < a.bound k ↔ a.key i ≤ k := by
  rcases Nat.eq_zero_or_pos k with rfl | hpos
  · have := a.key_pos i
    simp only [bound, if_true]
    omega
  · obtain ⟨e, _, hselect, hbit, hcount⟩ := Bitmap.select1_spec hpos hk
    have hstop : a.bound k = e + 1 := by
      rw [bound, if_neg (by omega), stop, hselect]
    rw [hstop, key_eq (Nat.le_of_lt hi), ← hcount]
    constructor
    · intro hlt
      exact Nat.succ_le_succ (countOnes_mono _ (by omega))
    · intro hle
      by_contra hge
      have hmono := countOnes_mono a.bitmap.bit (show e + 1 ≤ i by omega)
      rw [countOnes_succ, hbit] at hmono
      exact absurd (Nat.le_trans hmono (Nat.le_of_succ_le_succ hle)) (by simp)

theorem bound_le {k : Nat} (hk : k ≤ a.keys) : a.bound k ≤ a.size := by
  rcases Nat.eq_zero_or_pos k with rfl | hpos
  · simp [bound]
  · obtain ⟨e, he, hselect, _, _⟩ := Bitmap.select1_spec hpos hk
    rw [bound, if_neg (by omega), stop, hselect, size_eq]
    exact he

theorem keySpan_stop_le {k : Nat} (hk : k < a.keys) :
    (a.keySpan (k + 1)).stop ≤ a.size := by
  rw [keySpan_succ]
  exact bound_le (k := k + 1) hk

/-- A bound stands where the keys up to it end. -/
theorem bound_eq {b k : Nat} (hk : k ≤ a.keys) (hb : b ≤ a.size)
    (hbelow : ∀ i < b, a.key i ≤ k)
    (habove : ∀ i, b ≤ i → i < a.size → k < a.key i) :
    a.bound k = b := by
  have hbound := bound_le hk
  rcases Nat.lt_trichotomy (a.bound k) b with h | h | h
  · have := (lt_bound_iff (show a.bound k < a.size by omega) hk).mpr
      (hbelow _ h)
    omega
  · exact h
  · have hlt := (lt_bound_iff (show b < a.size by omega) hk).mp h
    have := habove b (Nat.le_refl b) (by omega)
    omega

@[simp] theorem bound_zero (a : Adjacency) : a.bound 0 = 0 := rfl

theorem bound_keys (a : Adjacency) : a.bound a.keys = a.size :=
  bound_eq (Nat.le_refl _) (Nat.le_refl _) (fun _ hi => key_le hi)
    (fun i h₁ h₂ => by omega)

/-- Every key has a value. -/
theorem bound_lt {k : Nat} (hk : k < a.keys) : a.bound k < a.bound (k + 1) := by
  obtain ⟨e, he, _, hbit, hcount⟩ :=
    Bitmap.select1_spec (b := a.bitmap) (Nat.succ_pos k) hk
  rw [← size_eq] at he
  have hkey : a.key e = k + 1 := by
    rw [key_eq (Nat.le_of_lt he)]
    exact hcount
  have hafter : ¬ e < a.bound k := by
    rw [lt_bound_iff he (Nat.le_of_lt hk), hkey]
    omega
  have hbefore := (lt_bound_iff (k := k + 1) he hk).mpr (Nat.le_of_eq hkey)
  omega

/-- The positions of a key are those whose key it is. -/
theorem mem_keySpan_iff {i k : Nat} (hk : k < a.keys) :
    i ∈ (a.keySpan (k + 1)).toList ↔ i < a.size ∧ a.key i = k + 1 := by
  rw [keySpan_succ, Span.mem_toList]
  dsimp only
  constructor
  · rintro ⟨hstart, hstop⟩
    have hi : i < a.size := Nat.lt_of_lt_of_le hstop (bound_le hk)
    have hle := (lt_bound_iff (k := k + 1) hi hk).mp hstop
    have hgt := mt (lt_bound_iff hi (Nat.le_of_lt hk)).mpr (by omega)
    exact ⟨hi, by omega⟩
  · rintro ⟨hi, hkey⟩
    have hbefore := (lt_bound_iff (k := k + 1) hi hk).mpr (Nat.le_of_eq hkey)
    have hafter := mt (lt_bound_iff hi (Nat.le_of_lt hk)).mp (by omega)
    exact ⟨by omega, hbefore⟩

/-- The keys of the positions in between follow their bounds. -/
theorem key_eq_of_mem {i k : Nat} (hk : k < a.keys) (hstart : a.bound k ≤ i)
    (hstop : i < a.bound (k + 1)) : a.key i = k + 1 := by
  have hmem : i ∈ (a.keySpan (k + 1)).toList := by
    rw [keySpan_succ, Span.mem_toList]
    exact ⟨hstart, hstop⟩
  exact ((mem_keySpan_iff hk).mp hmem).2

theorem range_bound_succ {k : Nat} (hk : k < a.keys) :
    List.range (a.bound (k + 1)) = List.range (a.bound k) ++
      (a.keySpan (k + 1)).toList := by
  have hlt := bound_lt hk
  rw [keySpan_succ, Span.toList, Span.size, List.range_eq_range',
    List.range_eq_range',
    show a.bound (k + 1) = a.bound k + (a.bound (k + 1) - a.bound k) by omega,
    ← List.range'_append_1, Nat.zero_add]
  simp only [Nat.add_sub_cancel_left]

/-- The spans of the first `n` keys are the positions before their bound. -/
theorem flatMap_keySpan_bound {n : Nat} (hn : n ≤ a.keys) :
    (List.range n).flatMap (fun k => (a.keySpan (k + 1)).toList) =
      List.range (a.bound n) := by
  induction n with
  | zero => rfl
  | succ n ih =>
      rw [List.range_succ, List.flatMap_append, ih (by omega),
        range_bound_succ hn]
      simp

/-- The spans of the keys are all positions, in their order. -/
theorem flatMap_keySpan (a : Adjacency) :
    (List.range a.keys).flatMap (fun k => (a.keySpan (k + 1)).toList) =
      List.range a.size := by
  rw [flatMap_keySpan_bound (Nat.le_refl _), bound_keys]

/-! ## Pairs -/

theorem pairsFrom_eq {i n : Nat} (h : i + n ≤ a.size) :
    a.pairsFrom (a.key i) i n = (List.range' i n).map fun j =>
      (a.key j, a.value j) := by
  induction n generalizing i with
  | zero => rfl
  | succ n ih =>
      rw [pairsFrom, ← key_succ (by omega), ih (by omega), List.range'_succ,
        List.map_cons]

theorem toList_eq (a : Adjacency) :
    a.toList = (List.range a.size).map fun i => (a.key i, a.value i) := by
  have h := pairsFrom_eq (a := a) (i := 0) (n := a.size) (by omega)
  rw [key_zero] at h
  rw [toList, h, List.range_eq_range']

theorem keys_eq_getLast? (a : Adjacency) :
    a.keys = (a.toList.getLast?.map Prod.fst).getD 0 := by
  rw [toList_eq]
  cases hsize : a.size with
  | zero =>
      rw [keys_eq, hsize]
      rfl
  | succ n =>
      rw [List.range_succ, List.map_append, List.map_singleton,
        List.getLast?_concat, keys_eq_key hsize]
      rfl

end Adjacency

end TripleStore
