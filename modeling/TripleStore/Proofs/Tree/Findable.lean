import Mathlib.Data.List.Sort
import TripleStore.Proofs.Adjacency.Search
import TripleStore.Proofs.Tree.Layout

/-!
# What halving finds

An id is looked for in the span of its key by halving. It is found where it
stands if the search for it ends there, or, where it may come more than once, at
the first of a stretch of the same id that reaches to it (`Findable`). In an
ascending tree every id is found; and if every id other than 0 is found and none
is 0, then the tree ascends (`findable_iff_ascending`).
-/

namespace TripleStore

namespace Adjacency

variable {a : Adjacency}

theorem value_le_maximum {i : Nat} (hi : i < a.size) :
    (a.value i).toNat ≤ (Sequence.maximum a.sequence.toList).toNat :=
  UInt64.le_iff_toNat_le.mp (Sequence.le_maximum
    (List.mem_map_of_mem (f := a.sequence.value) (List.mem_range.mpr hi)))

/-- Where the search for the value at position `i` ends, in the span of its key. -/
def firstOf (a : Adjacency) (i : Nat) : Nat :=
  a.lowerBound (a.keySpan (a.key i)).start
    (a.keySpan (a.key i)).stop (a.value i)

theorem firstOf_eq {i k : Nat} (hkey : a.key i = k + 1) :
    a.firstOf i = halve (fun m => a.value m < a.value i) (a.bound k)
      (a.bound (k + 1)) := by
  rw [firstOf, hkey, keySpan_succ, lowerBound_eq_halve]

/-- Every position lies in the span of a key. -/
theorem exists_key {i : Nat} (hi : i < a.size) :
    ∃ k < a.keys, a.key i = k + 1 ∧ a.bound k ≤ i ∧ i < a.bound (k + 1) := by
  obtain ⟨k, hkey⟩ := Nat.exists_eq_add_one.mpr (a.key_pos i)
  have hk : k < a.keys := by
    have := key_le hi
    omega
  have hmem := (mem_keySpan_iff hk).mpr ⟨hi, hkey⟩
  rw [keySpan_succ, Span.mem_toList] at hmem
  exact ⟨k, hk, hkey, hmem⟩

/-- What holds for neighbours of one key holds for all its positions. -/
theorem rel_of_key_eq {R : UInt64 → UInt64 → Prop}
    (htrans : ∀ u v w, R u v → R v w → R u w)
    (hstep : ∀ i, i + 1 < a.size → a.isLast i = false →
      R (a.value i) (a.value (i + 1)))
    {i j : Nat} (hij : i < j) (hj : j < a.size) (hkey : a.key i = a.key j) :
    R (a.value i) (a.value j) := by
  -- a position that ends its key is followed by a larger key, and none lies
  -- between equal ones
  induction hij with
  | refl =>
      refine hstep i hj (Bool.eq_false_iff.mpr fun hlast => ?_)
      have := key_succ (a := a) (i := i) (by omega)
      rw [if_pos hlast] at this
      rw [Nat.succ_eq_add_one] at hkey
      omega
  | @step m him ih =>
      have hmono := key_mono (a := a) (Nat.le_of_lt him) (by omega)
      have hmono' := key_mono (a := a) (Nat.le_succ m) (by omega)
      rw [Nat.succ_eq_add_one] at *
      refine htrans _ _ _ (ih (by omega) (by omega))
        (hstep m hj (Bool.eq_false_iff.mpr fun hlast => ?_))
      have := key_succ (a := a) (i := m) (by omega)
      rw [if_pos hlast] at this
      omega

theorem key_eq_of_not_last {i : Nat} (hi : i + 1 < a.size)
    (hlast : a.isLast i = false) :
    a.key (i + 1) = a.key i := by
  rw [key_succ (by omega), hlast]
  rfl

end Adjacency

namespace Tree

variable {t : Tree}

/-- Every id other than 0 is found where it stands. -/
structure Findable (t : Tree) : Prop where
  middles : ∀ j < t.middles.size, t.middles.value j ≠ 0 →
    t.middles.firstOf j = j
  minors : ∀ i < t.size, t.minors.value i ≠ 0 → t.minors.firstOf i ≤ i ∧
    ∀ m, t.minors.firstOf i ≤ m → m ≤ i → t.minors.value m = t.minors.value i

theorem Ascending.middles_lt (h : t.Ascending) {i j : Nat} (hij : i < j)
    (hj : j < t.middles.size) (hkey : t.middles.key i = t.middles.key j) :
    t.middles.value i < t.middles.value j :=
  Adjacency.rel_of_key_eq (R := (· < ·)) (fun _ _ _ => UInt64.lt_trans)
    h.middles hij hj hkey

theorem Ascending.minors_le (h : t.Ascending) {i j : Nat} (hij : i ≤ j)
    (hj : j < t.size) (hkey : t.minors.key i = t.minors.key j) :
    t.minors.value i ≤ t.minors.value j := by
  rcases Nat.lt_or_eq_of_le hij with hlt | rfl
  · exact Adjacency.rel_of_key_eq (R := (· ≤ ·)) (a := t.minors) (fun _ _ _ =>
      UInt64.le_trans)
      h.minors hlt hj hkey
  · exact UInt64.le_refl _

theorem Ascending.findable (h : t.Ascending) : t.Findable := by
  constructor
  · intro j hj _
    obtain ⟨k, hk, hkey, hstart, hstop⟩ := Adjacency.exists_key hj
    rw [Adjacency.firstOf_eq hkey]
    apply halve_eq hstart (Nat.le_of_lt hstop)
    · intro i hi hij
      rw [decide_eq_true_eq]
      exact h.middles_lt hij hj
        ((Adjacency.key_eq_of_mem hk hi (by omega)).trans hkey.symm)
    · intro i hji hi
      rw [decide_eq_false_iff_not, UInt64.lt_iff_toNat_lt, Nat.not_lt]
      rcases Nat.lt_or_eq_of_le hji with hlt | rfl
      · exact Nat.le_of_lt (UInt64.lt_iff_toNat_lt.mp (h.middles_lt hlt
          (Nat.lt_of_lt_of_le hi (Adjacency.bound_le hk))
          (hkey.trans (Adjacency.key_eq_of_mem hk (by omega) hi).symm)))
      · exact Nat.le_refl _
  · intro i hi _
    obtain ⟨k, hk, hkey, hstart, hstop⟩ := Adjacency.exists_key hi
    rw [Adjacency.firstOf_eq hkey]
    have hle {m n : Nat} (hm : t.minors.bound k ≤ m) (hmn : m ≤ n)
        (hn : n < t.minors.bound (k + 1)) :
        t.minors.value m ≤ t.minors.value n :=
      h.minors_le hmn (Nat.lt_of_lt_of_le hn (Adjacency.bound_le hk))
        ((Adjacency.key_eq_of_mem hk hm (by omega)).trans
          (Adjacency.key_eq_of_mem hk (by omega) hn).symm)
    obtain ⟨hbelow, habove⟩ :=
      halve_spec (fun m => t.minors.value m < t.minors.value i)
      (Nat.le_of_lt (Adjacency.bound_lt hk)) (by
        intro m n hm hmn hn hless
        rw [decide_eq_true_eq, UInt64.lt_iff_toNat_lt] at *
        have := UInt64.le_iff_toNat_le.mp (hle hm hmn hn)
        omega)
    have hmem := halve_mem (fun m => t.minors.value m < t.minors.value i)
      (Nat.le_of_lt (Adjacency.bound_lt hk))
    constructor
    · by_contra hgt
      have := of_decide_eq_true (hbelow i hstart (by omega))
      exact UInt64.lt_irrefl _ this
    · intro m hm hmi
      have hge := of_decide_eq_false (habove m hm (by omega))
      have hle := UInt64.le_iff_toNat_le.mp
        (hle (show t.minors.bound k ≤ m by omega) hmi hstop)
      rw [UInt64.lt_iff_toNat_lt] at hge
      exact UInt64.toNat_inj.mp (by omega)

/-- If none is 0, ids that are found ascend: the searches for two neighbours
part between the places where they end. -/
theorem Findable.ascending (h : t.Findable)
    (hmiddles : ∀ j < t.middles.size, t.middles.value j ≠ 0)
    (hminors : ∀ i < t.size, t.minors.value i ≠ 0) : t.Ascending := by
  constructor
  · intro j hj hlast
    have hfirst := h.middles j (by omega) (hmiddles j (by omega))
    have hnext := h.middles (j + 1) hj (hmiddles _ hj)
    obtain ⟨k, hk, hkey, -, -⟩ :=
      Adjacency.exists_key (show j < t.middles.size by omega)
    rw [Adjacency.firstOf_eq hkey] at hfirst
    rw [Adjacency.firstOf_eq
      ((Adjacency.key_eq_of_not_last hj hlast).trans hkey)] at hnext
    -- one search stays at `j` and the other goes on, so the position that parts
    -- them is `j`
    obtain ⟨m, hfrom, hto, -, hless⟩ := halve_parts
      (f := fun m => t.middles.value m < t.middles.value j)
      (g := fun m => t.middles.value m < t.middles.value (j + 1))
      (Nat.le_of_lt (Adjacency.bound_lt hk)) (by omega)
    rw [hfirst] at hfrom
    rw [hnext] at hto
    obtain rfl : m = j := by omega
    exact of_decide_eq_true hless
  · intro i hi hlast
    obtain ⟨hfirst, hsame⟩ := h.minors i (by omega) (hminors i (by omega))
    obtain ⟨hnext, hsame'⟩ := h.minors (i + 1) hi (hminors _ hi)
    rcases Nat.lt_or_eq_of_le hnext with hlt | hnext
    · -- the stretch of the next id reaches back to this one
      rw [hsame' i (by omega) (by omega)]
      exact UInt64.le_refl _
    · obtain ⟨k, hk, hkey, -, -⟩ :=
        Adjacency.exists_key (show i < t.minors.size from Nat.lt_of_succ_lt hi)
      rw [Adjacency.firstOf_eq hkey] at hfirst hsame
      rw [Adjacency.firstOf_eq
        ((Adjacency.key_eq_of_not_last hi hlast).trans hkey)] at hnext
      obtain ⟨m, hfrom, hto, -, hless⟩ := halve_parts
        (f := fun m => t.minors.value m < t.minors.value i)
        (g := fun m => t.minors.value m < t.minors.value (i + 1))
        (Nat.le_of_lt (Adjacency.bound_lt hk)) (by omega)
      have hvalue := hsame m hfrom (by omega)
      have hless := of_decide_eq_true hless
      rw [hvalue] at hless
      exact UInt64.le_of_lt hless

/-- In a tree without 0 every id is found exactly if the tree ascends. -/
theorem findable_iff_ascending
    (hmiddles : ∀ j < t.middles.size, t.middles.value j ≠ 0)
    (hminors : ∀ i < t.size, t.minors.value i ≠ 0) : t.Findable ↔ t.Ascending :=
  ⟨fun h => h.ascending hmiddles hminors, Ascending.findable⟩

end Tree

end TripleStore
