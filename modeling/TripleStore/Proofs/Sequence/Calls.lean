import TripleStore.Proofs.Sequence.Holding

/-!
# Sequences as lists

From an empty sequence of any width, or one made of a list, calls to append and
to replace do what they do to a list of numbers of that width (`Holds.run`): the
same calls fail, for the same reasons, and change nothing. What is left is the
list, in as many words as it takes and with no stray bit, so that it is read
back from its bytes in the same words (`calls_exact`).
-/

namespace TripleStore.Sequence

/-- What changes a sequence. -/
inductive Call where
  | append (value : UInt64)
  | set (i : Nat) (value : UInt64)

namespace Call

def apply (s : Sequence) : Call → Except Error Sequence
  | append v => s.append v
  | set i v => s.set i v

/-- What a call does to a list of numbers of `width` bits. -/
def onList (width : Nat) (values : List UInt64) :
    Call → Except Error (List UInt64)
  | append v =>
    if v.toNat < capacity width then
      .ok (values ++ [v]) else .error (.valueTooLarge v width)
  | set i v =>
    if i < values.length then
      if v.toNat < capacity width then
        .ok (values.set i v) else .error (.valueTooLarge v width)
    else .error (.outOfRange i values.length)

/-- Calls one after another, and which of them failed for what. One that fails
changes nothing. -/
def run {σ : Type} (step : σ → Call → Except Error σ) (a : σ) :
    List Call → List (Option Error) × σ
  | [] => ([], a)
  | c :: calls =>
    match step a c with
    | .ok a' => let (faults, last) := run step a' calls; (none :: faults, last)
    | .error fault =>
      let (faults, last) := run step a calls; (some fault :: faults, last)

theorem length_le_onList {width : Nat} {values values' : List UInt64} {c : Call}
    (h : c.onList width values = .ok values') :
    values.length ≤ values'.length := by
  cases c with
  | append v =>
      simp only [onList] at h
      split at h <;> cases h
      simp
  | set i v =>
      simp only [onList] at h
      split at h
      · split at h <;> cases h
        simp
      · cases h

theorem length_le_run (width : Nat) (values : List UInt64) (calls : List Call) :
    values.length ≤ (run (onList width) values calls).2.length := by
  induction calls generalizing values with
  | nil => exact Nat.le_refl _
  | cons c calls ih =>
      rw [run]
      split
      · next values' h => exact Nat.le_trans (length_le_onList h) (ih values')
      · exact ih values

end Call

/-- Numbers and bits can be counted in a word, as they can wherever there is
room for them. -/
structure Countable (width : Nat) (values : List UInt64) : Prop where
  size : values.length < capacity 64
  bits : values.length * width < capacity 64

theorem Countable.of_length_le {width : Nat} {values longer : List UInt64}
    (h : Countable width longer) (hle : values.length ≤ longer.length) :
    Countable width values :=
  ⟨Nat.lt_of_le_of_lt hle h.size,
    Nat.lt_of_le_of_lt (Nat.mul_le_mul_right _ hle) h.bits⟩

variable {s : Sequence} {values : List UInt64}

theorem Holds.hasRoom (h : s.Holds values) {v : UInt64}
    (hcount : Countable s.width (values ++ [v])) :
    s.HasRoom := by
  obtain ⟨hsize, hbits⟩ := hcount
  rw [List.length_append, List.length_singleton] at hsize hbits
  rw [HasRoom, h.size]
  exact ⟨hsize, hbits⟩

/-- A call fails on both or changes both alike. -/
theorem Holds.apply (h : s.Holds values) (c : Call)
    (hcount : ∀ values', c.onList s.width values = .ok values' →
      Countable s.width values') :
    (∃ fault, c.onList s.width values = .error fault ∧
      c.apply s = .error fault) ∨
      ∃ values' t, c.onList s.width values = .ok values' ∧ c.apply s = .ok t ∧
        t.width = s.width ∧ t.Holds values' := by
  cases c with
  | append v =>
      by_cases hv : v.toNat < capacity s.width
      · have hlist :
            (Call.append v).onList s.width values = .ok (values ++ [v]) :=
              if_pos hv
        obtain ⟨t, happend, hwidth, ht⟩ :=
          h.append hv (h.hasRoom (hcount _ hlist))
        exact .inr ⟨_, t, hlist, happend, hwidth, ht⟩
      · exact .inl ⟨_, if_neg hv, append_of_not_fits h.owned hv⟩
  | set i v =>
      by_cases hi : i < values.length
      · have hi' : i < s.size := by rwa [h.size]
        by_cases hv : v.toNat < capacity s.width
        · obtain ⟨t, hset, hwidth, ht⟩ := h.set hi hv
          refine .inr ⟨_, t, ?_, hset, hwidth, ht⟩
          rw [Call.onList, if_pos hi, if_pos hv]
        · refine .inl ⟨_, ?_, set_of_not_fits hi' hv⟩
          rw [Call.onList, if_pos hi, if_neg hv]
      · refine .inl ⟨_, if_neg hi, ?_⟩
        rw [← h.size]
        exact set_of_size_le (by rw [h.size]; exact Nat.le_of_not_lt hi)

/-- Calls one after another do to the sequence what they do to the list. -/
theorem Holds.run (h : s.Holds values) (calls : List Call)
    (hcount : Countable s.width
      (Call.run (Call.onList s.width) values calls).2) :
    (Call.run Call.apply s calls).1 =
      (Call.run (Call.onList s.width) values calls).1 ∧
      (Call.run Call.apply s calls).2.width = s.width ∧
      (Call.run Call.apply s calls).2.Holds
        (Call.run (Call.onList s.width) values calls).2 := by
  induction calls generalizing s values with
  | nil => exact ⟨rfl, rfl, h⟩
  | cons c calls ih =>
      rw [Call.run] at hcount
      -- the list never gets shorter, and so what is counted in the end is
      -- counted all along
      have hstep : ∀ values', c.onList s.width values = .ok values' →
          Countable s.width values' := by
        intro values' hc
        rw [hc] at hcount
        exact hcount.of_length_le (Call.length_le_run _ values' calls)
      rcases h.apply c hstep with ⟨fault, hlist, hcall⟩ |
        ⟨values', t, hlist, hcall, hwidth, ht⟩
      · rw [hlist] at hcount
        obtain ⟨hfaults, hend⟩ := ih h hcount
        rw [Call.run, Call.run, hlist, hcall]
        exact ⟨congrArg _ hfaults, hend⟩
      · rw [hlist, ← hwidth] at hcount
        obtain ⟨hfaults, hend⟩ := ih ht hcount
        rw [Call.run, Call.run, hlist, hcall, ← hwidth]
        exact ⟨congrArg _ hfaults, hend⟩

/-! ## Runs -/

/-- The sequence answers as the list does, and nothing else is stored. -/
structure Mirrors (s : Sequence) (values : List UInt64) : Prop where
  toList : s.toList = values
  get : ∀ i (h : i < values.length), s.get i = .ok values[i]
  outOfRange : ∀ i, values.length ≤ i →
    s.get i = .error (.outOfRange i values.length)
  size_words : s.words.size = wordsFor (values.length * s.width)
  clean : ∀ p, values.length * s.width ≤ p → bitRow s.words.word p = false
  reread : ∃ t, ofBytes s.toBytes = .ok t ∧ (t == s) = true

theorem Holds.mirrors (h : s.Holds values) (hcount : Countable s.width values) :
    s.Mirrors values where
  toList := h.toList
  get := fun _ hi => h.get hi
  outOfRange := fun _ hi => h.get_of_length_le hi
  size_words := by rw [← h.size, s.size_words]
  clean := by
    rw [← h.size]
    exact h.clean
  reread := h.reread ⟨by rw [h.size]; exact hcount.size,
    by rw [h.size]; exact hcount.bits⟩

/-- After the calls the sequence mirrors the list, and the same calls have
failed for the same reasons. -/
structure Follows (s : Sequence) (values : List UInt64) (calls : List Call) :
    Prop where
  faults : (Call.run Call.apply s calls).1 =
    (Call.run (Call.onList s.width) values calls).1
  width : (Call.run Call.apply s calls).2.width = s.width
  mirrors : (Call.run Call.apply s calls).2.Mirrors
    (Call.run (Call.onList s.width) values calls).2

theorem Holds.follows (h : s.Holds values) (calls : List Call)
    (hcount : Countable s.width
      (Call.run (Call.onList s.width) values calls).2) :
    s.Follows values calls := by
  obtain ⟨hfaults, hwidth, hend⟩ := h.run calls hcount
  exact ⟨hfaults, hwidth, hend.mirrors (hwidth ▸ hcount)⟩

/-- A sequence is a list of numbers of one width: after any calls on one that
was created empty or made of a list, in the least width that has room for all of
it, it mirrors the list, as long as what the list comes to can be counted. -/
theorem calls_exact (calls : List Call) :
    (∀ width ≤ Word.width, ∃ s, create width = .ok s ∧ s.width = width ∧
      (Countable width (Call.run (Call.onList width) [] calls).2 →
        s.Follows [] calls)) ∧
    ∀ values,
      (Countable (ofList values).width
          (Call.run (Call.onList (ofList values).width) values calls).2 →
        (ofList values).Follows values calls) ∧
      ∀ width, (ofList values).width ≤ width ↔
        ∀ v ∈ values, v.toNat < capacity width := by
  refine ⟨fun width hwidth => ?_, fun values => ?_⟩
  · obtain ⟨s, hcreate, hs, hholds⟩ := holds_create hwidth
    exact ⟨s, hcreate, hs, fun hcount => hholds.follows calls (by rwa [hs])⟩
  · exact ⟨(holds_ofList values).follows calls, fun _ => width_ofList_le_iff⟩

/-- The second number goes across two words, and one that is too large is
refused. -/
theorem calls_exact_straddling :
    let calls : List Call :=
      [.append 8589934591, .append 8589934592, .set 1 7, .set 9 0]
    let last := Call.run Call.apply (ofList [4294967296, 1]) calls
    (last.1 = [none, some (.valueTooLarge 8589934592 33), none,
      some (.outOfRange 9 3)] ∧
      last.2.Mirrors [4294967296, 7, 8589934591] ∧ last.2.words.size = 2) ∧
    ∃ s, create 33 = .ok s ∧
      (Call.run Call.apply s calls).2.Mirrors [8589934591] := by
  intro calls last
  have hpacked :
      Call.run (Call.onList (ofList [4294967296, 1]).width)
        [4294967296, 1] calls =
      ([none, some (.valueTooLarge 8589934592 33), none,
        some (.outOfRange 9 3)], [4294967296, 7, 8589934591]) := rfl
  have hcreated : (Call.run (Call.onList 33) [] calls).2 = [8589934591] := rfl
  refine ⟨?_, ?_⟩
  · obtain ⟨hfaults, hwidth, hend⟩ := ((calls_exact calls).2 [4294967296, 1]).1
      (by rw [hpacked]; exact ⟨by decide, by decide⟩)
    rw [hpacked] at hfaults hend
    refine ⟨hfaults, hend, ?_⟩
    rw [hend.size_words, hwidth]
    rfl
  · obtain ⟨s, hs, hwidth, hfollows⟩ := (calls_exact calls).1 33 (by decide)
    have hend :=
      (hfollows (by rw [hcreated]; exact ⟨by decide, by decide⟩)).mirrors
    rw [hwidth, hcreated] at hend
    exact ⟨s, hs, hend⟩

end TripleStore.Sequence
