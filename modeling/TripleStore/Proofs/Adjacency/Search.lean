import Mathlib.Order.Bounds.Defs
import TripleStore.Proofs.Adjacency.Spans
import TripleStore.Proofs.Halving
import TripleStore.Proofs.Outcome

/-!
# Searching the list of a key

A value is looked for in the span of its key by halving. What is found is right
whatever the order of the values (`find?_eq_some`), and if they ascend it is the
first position that holds the value (`find?_eq_some_iff`). The values of other
keys are never asked for (`find?_congr`).
-/

namespace TripleStore

theorem Span.pairwise_toList (s : Span) : s.toList.Pairwise (· < ·) :=
  List.pairwise_lt_range'

/-- What holds of the values of any two positions of a span holds of its list of
values. -/
theorem Span.pairwise_map_iff {α : Type} {R : α → α → Prop} {f : Nat → α}
    {s : Span} :
    (s.toList.map f).Pairwise R ↔ ∀ m n, s.start ≤ m → m < n → n < s.stop →
      R (f m) (f n) := by
  rw [List.pairwise_map]
  constructor
  · intro h m n hm hmn hn
    have hget := List.pairwise_iff_getElem.mp h (m - s.start) (n - s.start)
      (by simp [toList, size]; omega) (by simp [toList, size]; omega) (by omega)
    simpa [toList, Nat.add_sub_cancel' hm,
      Nat.add_sub_cancel' (Nat.le_trans hm (Nat.le_of_lt hmn))]
      using hget
  · intro h
    refine s.pairwise_toList.imp_of_mem fun {m n} hm hn hmn => ?_
    exact h m n (mem_toList.mp hm).1 hmn (mem_toList.mp hn).2

namespace Adjacency

variable {a b : Adjacency} {k i : Nat} {v : UInt64}

/-- What holds between the values of positions with one key holds along each
span. -/
theorem pairwise_span {R : UInt64 → UInt64 → Prop}
    (h : ∀ i j, i < j → j < a.size → a.key i = a.key j →
      R (a.value i) (a.value j))
    {span : Span} (hspan : a.span k = .ok span) :
    (span.toList.map a.value).Pairwise R := by
  obtain ⟨⟨hpos, hle⟩, rfl⟩ := span_eq_ok.mp hspan
  obtain ⟨k, rfl⟩ := Nat.exists_eq_add_one.mpr hpos
  rw [Span.pairwise_map_iff]
  intro m n hm hmn hn
  have hk : k < a.keys := hle
  obtain ⟨-, hm⟩ :=
    (mem_keySpan_iff hk).mp (Span.mem_toList.mpr ⟨hm, Nat.lt_trans hmn hn⟩)
  obtain ⟨hsize, hn⟩ :=
    (mem_keySpan_iff hk).mp (Span.mem_toList.mpr ⟨by omega, hn⟩)
  exact h m n hmn hsize (hm.trans hn.symm)

theorem keySpan_start_le (hk : k < a.keys) :
    (a.keySpan (k + 1)).start ≤ (a.keySpan (k + 1)).stop := by
  rw [keySpan_succ]
  exact Nat.le_of_lt (bound_lt hk)

/-- A search ends in the span of the key or behind its last position. -/
theorem lowerBound_mem (hk : k < a.keys) (v : UInt64) :
    (a.keySpan (k + 1)).start ≤
        a.lowerBound (a.keySpan (k + 1)).start (a.keySpan (k + 1)).stop v ∧
      a.lowerBound (a.keySpan (k + 1)).start (a.keySpan (k + 1)).stop v ≤
        (a.keySpan (k + 1)).stop := by
  rw [lowerBound_eq_halve]
  exact halve_mem _ (keySpan_start_le hk)

theorem find?_eq_some (hk : k < a.keys)
    (h : a.find? (a.keySpan (k + 1)) v = some i) :
    i < a.size ∧ a.key i = k + 1 ∧ a.value i = v := by
  rw [find?] at h
  split at h
  · next hfound =>
      cases h
      have hmem := (mem_keySpan_iff hk).mp
        (Span.mem_toList.mpr ⟨(lowerBound_mem hk v).1, hfound.1⟩)
      exact ⟨hmem.1, hmem.2, hfound.2⟩
  · cases h

/-- A search asks for values in its range only. -/
theorem lowerBound_congr {lo hi : Nat}
    (h : ∀ i, lo ≤ i → i < hi → a.value i = b.value i) (v : UInt64) :
    a.lowerBound lo hi v = b.lowerBound lo hi v := by
  rw [lowerBound_eq_halve, lowerBound_eq_halve]
  exact halve_congr fun i hlo hhi => by rw [h i hlo hhi]

theorem find?_congr {s : Span} (hs : s.start ≤ s.stop)
    (h : ∀ i ∈ s.toList, a.value i = b.value i) (v : UInt64) :
    a.find? s v = b.find? s v := by
  have hvalue : ∀ i, s.start ≤ i → i < s.stop → a.value i = b.value i :=
    fun i hlo hhi => h i (Span.mem_toList.mpr ⟨hlo, hhi⟩)
  have hstart : s.start ≤ a.lowerBound s.start s.stop v := by
    rw [lowerBound_eq_halve]
    exact (halve_mem _ hs).1
  rw [find?, find?, ← lowerBound_congr hvalue]
  by_cases hi : a.lowerBound s.start s.stop v < s.stop
  · rw [hvalue _ hstart hi]
  · rw [if_neg (fun hfound => hi hfound.1), if_neg (fun hfound => hi hfound.1)]

/-! ## Ascending values -/

section Ascending

variable (hk : k < a.keys)
  (hsorted : ((a.keySpan (k + 1)).toList.map a.value).Pairwise (· ≤ ·))
include hk hsorted

/-- Where the values ascend, a search parts the smaller ones from the rest. -/
theorem lowerBound_spec (v : UInt64) :
    (∀ i, (a.keySpan (k + 1)).start ≤ i →
      i < a.lowerBound (a.keySpan (k + 1)).start (a.keySpan (k + 1)).stop v →
      a.value i < v) ∧
    ∀ i, a.lowerBound (a.keySpan (k + 1)).start (a.keySpan (k + 1)).stop v ≤ i →
      i < (a.keySpan (k + 1)).stop → v ≤ a.value i := by
  rw [lowerBound_eq_halve]
  obtain ⟨hbelow, habove⟩ :=
    halve_spec (fun i => a.value i < v) (keySpan_start_le hk) (by
      intro m n hm hmn hn hless
      rcases Nat.eq_or_lt_of_le hmn with rfl | hlt
      · exact hless
      · have hle := Span.pairwise_map_iff.mp hsorted m n hm hlt hn
        simp only [decide_eq_true_eq, UInt64.lt_iff_toNat_lt,
          UInt64.le_iff_toNat_le] at hless hle ⊢
        exact Nat.lt_of_le_of_lt hle hless)
  exact ⟨fun i hstart hi => of_decide_eq_true (hbelow i hstart hi),
    fun i hi hstop => UInt64.not_lt.mp (of_decide_eq_false (habove i hi hstop))⟩

/-- Where the values ascend, a value that is there is found, and nowhere behind
it. -/
theorem find?_of_mem (hi : i ∈ (a.keySpan (k + 1)).toList)
    (hv : a.value i = v) :
    ∃ j ≤ i, a.find? (a.keySpan (k + 1)) v = some j := by
  subst hv
  obtain ⟨hstart, hstop⟩ := Span.mem_toList.mp hi
  obtain ⟨hbelow, habove⟩ := lowerBound_spec hk hsorted (a.value i)
  have hle :
      a.lowerBound (a.keySpan (k + 1)).start (a.keySpan (k + 1)).stop
        (a.value i) ≤ i := by
    by_contra hgt
    exact UInt64.lt_irrefl _ (hbelow i hstart (Nat.lt_of_not_le hgt))
  refine ⟨_, hle, if_pos ⟨Nat.lt_of_le_of_lt hle hstop, ?_⟩⟩
  -- it is not less than the value, and stands at `i` or before it
  refine UInt64.le_antisymm ?_
    (habove _ (Nat.le_refl _) (Nat.lt_of_le_of_lt hle hstop))
  rcases Nat.eq_or_lt_of_le hle with heq | hlt
  · rw [heq]
    exact UInt64.le_refl _
  · exact Span.pairwise_map_iff.mp hsorted _ i (lowerBound_mem hk _).1 hlt hstop

/-- What is found is the first position that holds the value. -/
theorem find?_eq_some_iff : a.find? (a.keySpan (k + 1)) v = some i ↔
    IsLeast {j | j ∈ (a.keySpan (k + 1)).toList ∧ a.valueAt j = .ok v} i := by
  have hsound : ∀ j, a.find? (a.keySpan (k + 1)) v = some j →
      j ∈ (a.keySpan (k + 1)).toList ∧ a.valueAt j = .ok v := by
    intro j hj
    obtain ⟨hsize, hkey, hvalue⟩ := find?_eq_some hk hj
    exact ⟨(mem_keySpan_iff hk).mpr ⟨hsize, hkey⟩,
      valueAt_eq_ok.mpr ⟨hsize, hvalue⟩⟩
  constructor
  · intro h
    refine ⟨hsound i h, ?_⟩
    rintro j ⟨hmem, hvalue⟩
    obtain ⟨l, hl, hfind⟩ :=
      find?_of_mem hk hsorted hmem (valueAt_eq_ok.mp hvalue).2
    rw [h] at hfind
    cases hfind
    exact hl
  · rintro ⟨⟨hmem, hvalue⟩, hleast⟩
    obtain ⟨l, hl, hfind⟩ :=
      find?_of_mem hk hsorted hmem (valueAt_eq_ok.mp hvalue).2
    rw [hfind, Nat.le_antisymm hl (hleast (hsound l hfind))]

theorem find?_eq_none_iff : a.find? (a.keySpan (k + 1)) v = none ↔
    v ∉ (a.keySpan (k + 1)).toList.map a.value := by
  constructor
  · intro h hmem
    obtain ⟨i, hi, hvalue⟩ := List.mem_map.mp hmem
    obtain ⟨j, -, hfind⟩ := find?_of_mem hk hsorted hi hvalue
    rw [h] at hfind
    cases hfind
  · intro h
    refine Option.eq_none_iff_forall_not_mem.mpr fun i hi => h ?_
    obtain ⟨hsize, hkey, hvalue⟩ := find?_eq_some hk hi
    exact List.mem_map.mpr ⟨i, (mem_keySpan_iff hk).mpr ⟨hsize, hkey⟩, hvalue⟩

end Ascending

/-! ## Searching -/

theorem search_of_span {s : Span} (h : a.span k = .ok s) (v : UInt64) :
    a.search k v = .ok (a.find? s v) := by
  rw [search, h]
  rfl

/-- The search for a value in the list of a key never fails. If it finds a
position, that is one of the key and holds the value; if the values of the key
ascend, it is the first such position, and there is none if none is found. No
value of another key matters. A key that there is not is out of range. -/
theorem search_exact (a : Adjacency) (k : Nat) (v : UInt64) :
    (1 ≤ k ∧ k ≤ a.keys → ∃ s found, a.span k = .ok s ∧
      a.search k v = .ok found ∧
      (∀ i ∈ found, i ∈ s.toList ∧ a.valueAt i = .ok v) ∧
      ((s.toList.map a.value).Pairwise (· ≤ ·) →
        (∀ i, found = some i ↔
          IsLeast {j | j ∈ s.toList ∧ a.valueAt j = .ok v} i) ∧
        (found = none ↔ v ∉ s.toList.map a.value)) ∧
      ∀ b : Adjacency, b.span k = .ok s →
      (∀ i ∈ s.toList, b.value i = a.value i) →
        b.search k v = .ok found) ∧
    (¬ (1 ≤ k ∧ k ≤ a.keys) →
      a.search k v = .error (.outOfRange k (a.keys + 1))) := by
  constructor
  · intro hin
    obtain ⟨n, rfl⟩ := Nat.exists_eq_add_one.mpr hin.1
    have hk : n < a.keys := hin.2
    have hspan : a.span (n + 1) = .ok (a.keySpan (n + 1)) :=
      span_eq_ok.mpr ⟨hin, rfl⟩
    refine ⟨_, _, hspan, search_of_span hspan v, ?_,
      fun hsorted => ⟨fun i => ?_, ?_⟩, fun b hb hvalue => ?_⟩
    · intro i hi
      obtain ⟨hsize, hkey, hvalue⟩ := find?_eq_some hk hi
      exact ⟨(mem_keySpan_iff hk).mpr ⟨hsize, hkey⟩,
        valueAt_eq_ok.mpr ⟨hsize, hvalue⟩⟩
    · exact find?_eq_some_iff hk hsorted
    · exact find?_eq_none_iff hk hsorted
    · rw [search_of_span hb, find?_congr (keySpan_start_le hk) hvalue]
  · intro hout
    rw [search, span, if_pos (by omega)]
    rfl

theorem search_exact_repeated : ∃ a, build [[9], [7, 2], [1, 8, 8, 9]] = .ok a ∧
    a.search 3 8 = .ok (some 4) ∧ a.search 3 2 = .ok none ∧
    a.search 4 1 = .error (.outOfRange 4 4) := by
  have heval : ((do
      let a ← build [[9], [7, 2], [1, 8, 8, 9]]
      let s ← a.span 3
      return (a.keys, a.size, s, [3, 4, 5, 6].map a.value) :
        Except Error (Nat × Nat × Span × List UInt64))).toOption =
      some (3, 7, ⟨3, 7⟩, [1, 8, 8, 9]) := by decide +kernel
  obtain ⟨a, ha, heval⟩ := bind_eq_ok.mp (toOption_eq_some.mp heval)
  obtain ⟨s, hs, heval⟩ := bind_eq_ok.mp heval
  have heval := Except.ok.inj heval
  simp only [Prod.mk.injEq] at heval
  obtain ⟨hkeys, hsize, rfl, hvalues⟩ := heval
  have hspan : (⟨3, 7⟩ : Span).toList = [3, 4, 5, 6] := rfl
  have hsorted : ((⟨3, 7⟩ : Span).toList.map a.value).Pairwise (· ≤ ·) := by
    rw [hspan, hvalues]
    decide
  have hfound : ∀ v, ∃ found, a.search 3 v = .ok found ∧
      (∀ i, found = some i ↔
        IsLeast {j | j ∈ [3, 4, 5, 6] ∧ a.valueAt j = .ok v} i) ∧
      (found = none ↔ v ∉ [1, 8, 8, 9]) := by
    intro v
    obtain ⟨t, found, ht, hsearch, -, hleast, -⟩ :=
      (search_exact a 3 v).1 (by omega)
    rw [hs] at ht
    cases ht
    rw [← hspan, ← hvalues, ← hspan]
    exact ⟨found, hsearch, hleast hsorted⟩
  refine ⟨a, ha, ?_, ?_, ?_⟩
  · obtain ⟨found, hsearch, hleast, -⟩ := hfound 8
    simp only [List.map_cons, List.map_nil, List.cons.injEq,
      and_true] at hvalues
    rw [hsearch, (hleast 4).mpr]
    refine ⟨⟨by simp, valueAt_eq_ok.mpr ⟨by omega, hvalues.2.1⟩⟩, ?_⟩
    rintro j ⟨hmem, hj⟩
    have hne : j ≠ 3 := by
      rintro rfl
      rw [valueAt_eq_ok, hvalues.1] at hj
      exact absurd hj.2 (by decide)
    simp only [List.mem_cons, List.not_mem_nil, or_false] at hmem
    omega
  · obtain ⟨found, hsearch, -, hnone⟩ := hfound 2
    rw [hsearch, hnone.mpr (by decide)]
  · have hout := (search_exact a 4 1).2 (by omega)
    rwa [hkeys] at hout

end Adjacency

end TripleStore
