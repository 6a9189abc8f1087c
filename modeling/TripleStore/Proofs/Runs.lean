import TripleStore.Runs
import TripleStore.Proofs.Bits.Word

/-!
# Runs in lists

The number of the run that an element lies in is the number of runs that end
before it, and the last element of that run has its key (`key_lasts`). What
neighbours in a list are to each other, the last elements of neighbouring runs
are too (`isChain_lasts`). If no key comes back after its run, the runs have the
keys of the list in the order in which they first appear
(`map_lasts_eq_eraseDups`), and a key's place among them is the number of its
run (`idxOf_key`).
-/

namespace TripleStore.Runs

variable {α κ : Type} [DecidableEq κ] {key : α → κ}

/-- How many runs end before position `i`. -/
def endsBefore (key : α → κ) (l : List α) (i : Nat) : Nat :=
  countOnes (fun j => (ends key l).getD j false) i

theorem endsBefore_zero (l : List α) : endsBefore key l 0 = 0 := by
  simp [endsBefore, countOnes]

theorem endsBefore_cons_succ (a b : α) (l : List α) (i : Nat) :
    endsBefore key (a :: b :: l) (i + 1) =
      endsBefore key (b :: l) i + if key a = key b then 0 else 1 := by
  rw [endsBefore, ends, Nat.add_comm i 1, countOnes_add, Nat.add_comm]
  congr 1
  · simp [endsBefore, Nat.add_comm 1]
  · by_cases h : key a = key b <;> simp [countOnes, Nat.count_succ, h]

/-- The last element of the run that position `i` lies in has its key. -/
theorem key_lasts (key : α → κ) (l : List α) {i : Nat} (h : i < l.length) :
    ∃ a, (lasts key l)[endsBefore key l i]? = some a ∧ key a = key l[i] := by
  fun_induction lasts key l generalizing i with
  | case1 => simp at h
  | case2 a =>
      obtain rfl : i = 0 := by simpa using h
      exact ⟨a, by simp [endsBefore_zero], rfl⟩
  | case3 a b l hab ih =>
      cases i with
      | zero =>
          obtain ⟨c, hc, hkey⟩ := ih (i := 0) (by simp)
          rw [endsBefore_zero] at hc ⊢
          exact ⟨c, hc, hkey.trans hab.symm⟩
      | succ i =>
          rw [endsBefore_cons_succ, if_pos hab, Nat.add_zero,
            List.getElem_cons_succ]
          exact ih (by simpa using h)
  | case4 a b l hab ih =>
      cases i with
      | zero => exact ⟨a, by simp [endsBefore_zero], rfl⟩
      | succ i =>
          rw [endsBefore_cons_succ, if_neg hab, List.getElem?_cons_succ,
            List.getElem_cons_succ]
          exact ih (by simpa using h)

theorem lasts_cons (key : α → κ) (a : α) (l : List α) :
    ∃ b rest, lasts key (a :: l) = b :: rest ∧ key b = key a := by
  induction l generalizing a with
  | nil => exact ⟨a, [], rfl, rfl⟩
  | cons c l ih =>
      rw [lasts]
      by_cases h : key a = key c
      · obtain ⟨b, rest, hlasts, hkey⟩ := ih c
        rw [if_pos h]
        exact ⟨b, rest, hlasts, hkey.trans h.symm⟩
      · rw [if_neg h]
        exact ⟨a, _, rfl, rfl⟩

/-- If neighbours with different keys are in relation and that depends on the
keys, the last elements of neighbouring runs are in relation. -/
theorem isChain_lasts {R S : α → α → Prop} {l : List α} (hl : l.IsChain R)
    (hRS : ∀ a b c, R a b → key a ≠ key b → key c = key b → S a c) :
    (lasts key l).IsChain S := by
  fun_induction lasts key l with
  | case1 => exact .nil
  | case2 a => exact .singleton a
  | case3 a b l hab ih => exact ih (List.isChain_cons_cons.mp hl).2
  | case4 a b l hab ih =>
      obtain ⟨hR, hl⟩ := List.isChain_cons_cons.mp hl
      obtain ⟨c, rest, hlasts, hkey⟩ := lasts_cons key b l
      have hchain := ih hl
      rw [hlasts] at hchain ⊢
      exact List.isChain_cons_cons.mpr ⟨hRS a b c hR hab hkey, hchain⟩

/-- Where no run ends, the next element has the same key. -/
theorem key_eq_of_not_end (l : List α) {i : Nat} (h : i + 1 < l.length)
    (hend : (ends key l).getD i false = false) : key l[i] = key l[i + 1] := by
  induction l generalizing i with
  | nil => simp at h
  | cons a l ih =>
      cases l with
      | nil => simp at h
      | cons b l =>
          cases i with
          | zero => simpa [ends] using hend
          | succ i => exact ih (by simpa using h) (by simpa [ends] using hend)

/-- Every list that is not empty ends a run. -/
theorem ends_last (l : List α) (h : l ≠ []) :
    (ends key l).getD (l.length - 1) false = true := by
  fun_induction ends key l with
  | case1 => exact absurd rfl h
  | case2 a => rfl
  | case3 a b l ih => simpa using ih (by simp)

/-! ## Keys that do not come back -/

theorem mem_map_lasts {k : κ} {l : List α} : k ∈ (lasts key l).map key ↔
    k ∈ l.map key := by
  fun_induction lasts key l with
  | case1 => exact Iff.rfl
  | case2 a => exact Iff.rfl
  | case3 a b l hab ih => simp [ih, hab]
  | case4 a b l hab ih =>
      rw [List.map_cons, List.mem_cons, ih, List.map_cons (a := a),
        List.mem_cons]

theorem map_lasts_eq_eraseDups [BEq κ] [LawfulBEq κ] {l : List α}
    (h : ((lasts key l).map key).Nodup) :
    (lasts key l).map key = (l.map key).eraseDups := by
  fun_induction lasts key l with
  | case1 => rfl
  | case2 a => simp [List.eraseDups_cons]
  | case3 a b l hab ih =>
      rw [ih h]
      simp [List.eraseDups_cons, hab]
  | case4 a b l hab ih =>
      rw [List.map_cons, List.nodup_cons] at h
      obtain ⟨hnew, hrest⟩ := h
      rw [mem_map_lasts] at hnew
      rw [List.map_cons, ih hrest, List.map_cons (a := a), List.eraseDups_cons,
        List.filter_eq_self.mpr]
      intro k hk
      simpa using ne_of_mem_of_not_mem hk hnew

/-- The number of an element's run is the place of its key. -/
theorem idxOf_key [BEq κ] [LawfulBEq κ] {l : List α}
    (h : ((lasts key l).map key).Nodup) {i : Nat}
    (hi : i < l.length) :
    ((lasts key l).map key).idxOf (key l[i]) = endsBefore key l i := by
  obtain ⟨a, ha, hkey⟩ := key_lasts key l hi
  obtain ⟨hlt, rfl⟩ := List.getElem?_eq_some_iff.mp ha
  have hplace := h.idxOf_getElem (endsBefore key l i) (by simpa using hlt)
  rwa [List.getElem_map, hkey] at hplace

/-! ## One element more -/

theorem ends_map (key : α → κ) (l : List α) :
    ends id (l.map key) = ends key l := by
  fun_induction ends key l with
  | case1 => rfl
  | case2 a => rfl
  | case3 a b l ih =>
      rw [List.map_cons, List.map_cons, ends, ← List.map_cons, ih]
      rfl

/-- Whether a run ends is known when the next element comes; until then the last
one ends it. -/
theorem ends_concat (key : α → κ) (l : List α) (a b : α) : ∃ known,
    ends key (l ++ [a]) = known ++ [true] ∧
      ends key (l ++ [a, b]) = known ++ [decide (key a ≠ key b), true] := by
  induction l with
  | nil => exact ⟨[], rfl, rfl⟩
  | cons c l ih =>
      obtain ⟨known, hends, hmore⟩ := ih
      cases l with
      | nil =>
        exact ⟨decide (key c ≠ key a) :: known, by simp_all [ends],
          by simp_all [ends]⟩
      | cons d l =>
        exact ⟨decide (key c ≠ key d) :: known, by simp_all [ends],
          by simp_all [ends]⟩

/-- The last element stays the last of its run, unless one with the same key
comes. -/
theorem lasts_concat (key : α → κ) (l : List α) (a b : α) : ∃ rest,
    lasts key (l ++ [a]) = rest ++ [a] ∧
      lasts key (l ++ [a, b]) =
        (if key a = key b then rest else rest ++ [a]) ++ [b] := by
  induction l with
  | nil =>
      refine ⟨[], rfl, ?_⟩
      by_cases hab : key a = key b <;> simp [lasts, hab]
  | cons c l ih =>
      obtain ⟨rest, hlasts, hmore⟩ := ih
      -- an element further in front takes part only through the key of the next one
      cases l with
      | nil =>
          by_cases hca : key c = key a
          · exact ⟨rest, by simp_all [lasts], by simp_all [lasts]⟩
          · refine ⟨c :: rest, by simp_all [lasts], ?_⟩
            by_cases hab : key a = key b <;> simp_all [lasts]
      | cons d l =>
          by_cases hcd : key c = key d
          · exact ⟨rest, by simp_all [lasts], by simp_all [lasts]⟩
          · refine ⟨c :: rest, by simp_all [lasts], ?_⟩
            by_cases hab : key a = key b <;> simp_all [lasts]

theorem length_lasts_le (key : α → κ) (l : List α) :
    (lasts key l).length ≤ l.length := by
  rw [← count_ends, ← length_ends key l]
  exact List.count_le_length

theorem length_le_of_lasts {l rest : List α} {a : α}
    (h : lasts key (l ++ [a]) = rest ++ [a]) :
    rest.length ≤ l.length := by
  have hle := length_lasts_le key (l ++ [a])
  rw [h, List.length_append, List.length_append] at hle
  exact Nat.le_of_add_le_add_right hle

theorem getLast?_lasts (key : α → κ) (l : List α) :
    (lasts key l).getLast? = l.getLast? := by
  cases l using List.reverseRecOn with
  | nil => rfl
  | append_singleton l a =>
      obtain ⟨rest, hlasts, -⟩ := lasts_concat key l a a
      rw [hlasts, List.getLast?_concat, List.getLast?_concat]

end TripleStore.Runs
