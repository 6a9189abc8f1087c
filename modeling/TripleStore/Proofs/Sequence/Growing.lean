import TripleStore.Proofs.Checked.Bitmap
import TripleStore.Proofs.Sequence.Made

/-!
# How far a sequence grows

What appending counts has to fit into a word: the numbers, and the bits up to
the end of the last one. Reading refuses what has too many bits, but not what
has as many numbers as can be counted, which at width 0 take no bits; the next
number then stops the program. So appending to a sequence that was read goes
right just as long as its numbers and their bits can be counted (`growing_iff`).
-/

namespace TripleStore

open Sequence in
/-- Appending step by step, each offset and count demanded to stay within a word. -/
def Checked.append (s : Sequence) (v : UInt64) :
    Option (Except Error Sequence) :=
  match h : s.words with
  | .view .. => some (.error .readOnly)
  | .owned words =>
    if v.toNat < capacity s.width then do
      demand (s.size * s.width < capacity 64)
      demand (s.size * s.width + s.width < capacity 64)
      demand (s.size + 1 < capacity 64)
      return .ok {
        words := .owned
          (put (grow words (wordsFor (s.size * s.width + s.width))) s.width
            (s.size * s.width) v)
        width := s.width
        size := s.size + 1
        width_le := s.width_le
        size_words := by
          rw [Words.size, size_put, ← Nat.succ_mul]
          exact size_grow h }
    else some (.error (.valueTooLarge v s.width))

namespace Sequence

variable {s t : Sequence} {v : UInt64}

/-! ## One number more -/

/-- The sequence `t` has one number more than `s`, and nothing was counted
beyond what a word holds on the way, nor is it where the numbers of `t` are
looked up. -/
structure Grows (s : Sequence) (v : UInt64) (t : Sequence) : Prop where
  append : s.append v = .ok t
  checked : Checked.append s v = some (.ok t)
  size : t.size = s.size + 1
  get : ∀ i < s.size, t.get i = s.get i
  last : t.get s.size = .ok v
  offset : ∀ i ≤ t.size, i * t.width < capacity 64

theorem eq_of_words (hwords : s.words = t.words) (hwidth : s.width = t.width)
    (hsize : s.size = t.size) :
    s = t := by
  obtain ⟨words, width, size, _, _⟩ := s
  obtain ⟨words', width', size', _, _⟩ := t
  dsimp only at hwords hwidth hsize
  subst hwords hwidth hsize
  rfl

/-- With room for one number more no check fails. -/
theorem checked_append_eq (hs : s.Owned) (hv : v.toNat < capacity s.width)
    (hroom : s.HasRoom) :
    Checked.append s v = some (s.append v) := by
  obtain ⟨words, hwords⟩ := hs
  obtain ⟨t, happend, hwidth, hcount, hput⟩ := append_owned hwords hv hroom
  obtain ⟨hsize, hbits⟩ := hroom
  obtain ⟨words', width, size, hle, hsize_words⟩ := s
  dsimp only at hwords hwidth hcount hput hv hsize hbits
  subst hwords
  rw [Nat.succ_mul] at hbits hput
  rw [happend]
  simp only [Checked.append, if_pos hv]
  rw [Checked.demand_eq (Nat.lt_of_le_of_lt (Nat.le_add_right _ _) hbits),
    Checked.demand_eq hbits, Checked.demand_eq hsize]
  exact congrArg (fun t => some (Except.ok t))
    (eq_of_words hput.symm hwidth.symm hcount.symm)

/-- Without it one of them does. -/
theorem checked_append_eq_none (hs : s.Owned) (hv : v.toNat < capacity s.width)
    (hroom : ¬ s.HasRoom) : Checked.append s v = none := by
  obtain ⟨words, hwords⟩ := hs
  obtain ⟨words', width, size, hle, hsize_words⟩ := s
  dsimp only at hwords hv
  subst hwords
  rw [HasRoom, Nat.succ_mul] at hroom
  simp only [Checked.append, if_pos hv, Checked.demand]
  split
  · split
    · rw [if_neg fun hsize => hroom ⟨hsize, ‹_›⟩]
      rfl
    · rfl
  · rfl

/-- The program stops just where a check fails, and answers alike otherwise. -/
theorem append_eq_checked (s : Sequence) (v : UInt64) :
    s.append v = (Checked.append s v).getD (.error .overflow) := by
  obtain ⟨words | ⟨backing, offset, n⟩, width, size, hle, hwords⟩ := s
  · by_cases hv : v.toNat < capacity width
    · by_cases hroom : HasRoom ⟨.owned words, width, size, hle, hwords⟩
      · rw [checked_append_eq ⟨words, rfl⟩ hv hroom, Option.getD_some]
      · rw [checked_append_eq_none ⟨words, rfl⟩ hv hroom,
          append_of_not_hasRoom ⟨words, rfl⟩ hv hroom, Option.getD_none]
    · rw [append_of_not_fits ⟨words, rfl⟩ hv]
      simp only [Checked.append, if_neg hv, Option.getD_some]
  · rfl

/-- With room for one number more a sequence grows. -/
theorem exists_grows (hs : s.Owned) (hv : v.toNat < capacity s.width)
    (hroom : s.HasRoom) :
    ∃ t, s.Grows v t := by
  obtain ⟨t, happend, -, hcount, hput⟩ := append_of_fits hs hv hroom
  refine ⟨t, happend, by rw [checked_append_eq hs hv hroom, happend], hcount,
    fun i hi => ?_, ?_,
    fun i hi => ?_⟩
  · rw [Sequence.get, Sequence.get, if_pos hi, if_pos (by omega), hput.value,
      if_neg (Nat.ne_of_lt hi)]
  · rw [Sequence.get, if_pos (by omega), hput.value, if_pos rfl]
  · rw [hput.width]
    rw [hcount] at hi
    exact Nat.lt_of_le_of_lt (Nat.mul_le_mul_right _ hi) hroom.2

/-! ## Runs -/

/-- Appending one value after another, each that has room in the width makes the
sequence grow, and each that has not is refused. -/
def Growing (s : Sequence) : List UInt64 → Prop
  | [] => True
  | v :: values =>
    if v.toNat < capacity s.width then ∃ t, s.Grows v t ∧ t.Growing values
    else s.append v = .error (.valueTooLarge v s.width) ∧ s.Growing values

/-- How many of the values have room in the width. -/
def fitting (width : Nat) (values : List UInt64) : Nat :=
  values.countP fun v => v.toNat < capacity width

theorem growing_iff_of_owned (hs : s.Owned) (hportable : s.Portable)
    (values : List UInt64) :
    s.Growing values ↔ s.size + fitting s.width values < capacity 64 ∧
      (s.size + fitting s.width values) * s.width < capacity 64 := by
  induction values generalizing s with
  | nil => exact iff_of_true trivial ⟨hportable.size, hportable.bits⟩
  | cons v values ih =>
      rw [Growing]
      by_cases hv : v.toNat < capacity s.width
      · have hcount :
            s.size + fitting s.width (v :: values) =
              s.size + 1 + fitting s.width values := by
          rw [fitting, List.countP_cons_of_pos (by simpa using hv), ← fitting]
          omega
        rw [if_pos hv, hcount]
        -- the first step is made alike in both directions; what is left is the
        -- induction
        have hstep : ∀ t, s.Grows v t → (t.Growing values ↔
            s.size + 1 + fitting s.width values < capacity 64 ∧
              (s.size + 1 + fitting s.width values) * s.width <
                capacity 64) := by
          intro t ht
          obtain ⟨-, -, -, howned, hwidth, -⟩ := append_eq_ok ht.append
          rw [ih howned (portable_of_append ht.append), ht.size, hwidth]
        constructor
        · rintro ⟨t, ht, hgrowing⟩
          exact (hstep t ht).mp hgrowing
        · intro hroom
          have hle : s.size + 1 ≤ s.size + 1 + fitting s.width values :=
            Nat.le_add_right _ _
          obtain ⟨t, ht⟩ := exists_grows hs hv ⟨Nat.lt_of_le_of_lt hle hroom.1,
            Nat.lt_of_le_of_lt (Nat.mul_le_mul_right _ hle) hroom.2⟩
          exact ⟨t, ht, (hstep t ht).mpr hroom⟩
      · have hcount : fitting s.width (v :: values) = fitting s.width values :=
          List.countP_cons_of_neg (by simpa using hv)
        rw [if_neg hv, hcount, ih hs hportable,
          and_iff_right (append_of_not_fits hs hv)]

/-! ## What was read -/

theorem owned_of_read {config : Config} (hmode : config.loadMode = .loaded) :
    Scan.Yields (read config) Owned := by
  refine Scan.yields_bind fun _ => Scan.yields_bind fun _ =>
    Scan.yields_bind fun _ =>
    Scan.yields_bind fun _ => Scan.yields_bind fun byte => ?_
  dsimp only
  split
  · refine Scan.yields_bind fun size => ?_
    split
    · exact Scan.yields_throw _ _
    · have hwords : ∀ n, Scan.Yields (Words.read config.loadMode n) fun w =>
          ∃ words, w.val = .owned words := by
        intro n
        rw [hmode]
        exact Scan.yields_bind fun _ => Scan.yields_pure ⟨_, rfl⟩
      exact Scan.yields_then (hwords _) fun _ howned =>
        Scan.yields_bind fun _ => Scan.yields_pure howned
  · exact Scan.yields_throw _ _

/-- Whatever bytes a sequence was read from, a run of appends grows it just if
the number of values that it comes to and the number of their bits can be
counted in a word. -/
theorem growing_iff {bytes : Bytes} (h : (ofBytes bytes).result = .ok s)
    (values : List UInt64) :
    s.Growing values ↔ s.size + fitting s.width values < capacity 64 ∧
      (s.size + fitting s.width values) * s.width < capacity 64 :=
  growing_iff_of_owned (Scan.of_run (Scan.yields_whole (owned_of_read rfl)) h)
    (Scan.of_run (Scan.yields_whole (portable_of_read _)) h) values

/-- Of three values the second has no room in three bits. -/
theorem growing_refused :
    ∃ s,
      (ofBytes [36, 84, 82, 73, 2, 1, 129, 136, 99, 104, 101, 99, 107, 115, 117,
        109, 133, 99, 114, 99, 51, 50, 132, 130, 3, 130, 13, 0, 0, 0, 0, 0, 0,
        0, 111, 46, 40, 218]).result =
      .ok s ∧ s.Growing [7, 9, 2] := by
  have heval :
      ((ofBytes [36, 84, 82, 73, 2, 1, 129, 136, 99, 104, 101, 99, 107, 115,
        117, 109, 133, 99, 114, 99, 51, 50, 132, 130, 3, 130, 13, 0, 0, 0, 0, 0,
        0, 0, 111, 46, 40, 218]).result >>= fun s =>
        .ok (s.width, s.size)).toOption = some (3, 2) := by decide +kernel
  obtain ⟨s, hs, hshape⟩ := bind_eq_ok.mp (toOption_eq_some.mp heval)
  obtain ⟨hwidth, hsize⟩ := Prod.mk.inj (Except.ok.inj hshape)
  refine ⟨s, hs, (growing_iff hs _).mpr ?_⟩
  rw [hwidth, hsize]
  decide

/-- At width 0 as many numbers as can be counted are read from a few bytes, and
there is no room for one more. -/
theorem append_overflows :
    ∃ s,
      (ofBytes [36, 84, 82, 73, 2, 1, 129, 136, 99, 104, 101, 99, 107, 115, 117,
        109, 133, 99, 114, 99, 51, 50, 132, 130, 0, 127, 127, 127, 127, 127,
        127, 127, 127, 127, 129, 177, 118, 174, 128]).result = .ok s ∧
    s.size = capacity 64 - 1 ∧ s.append 0 = .error .overflow := by
  have heval :
      ((ofBytes [36, 84, 82, 73, 2, 1, 129, 136, 99, 104, 101, 99, 107, 115,
        117, 109, 133, 99, 114, 99, 51, 50, 132, 130, 0, 127, 127, 127, 127,
        127, 127, 127, 127, 127, 129, 177, 118, 174, 128]).result >>=
        fun s => .ok (s.size, s.width)).toOption =
          some (capacity 64 - 1, 0) := by
    decide +kernel
  obtain ⟨s, hs, hshape⟩ := bind_eq_ok.mp (toOption_eq_some.mp heval)
  obtain ⟨hsize, hwidth⟩ := Prod.mk.inj (Except.ok.inj hshape)
  have howned : s.Owned :=
    Scan.of_run (Scan.yields_whole (owned_of_read rfl)) hs
  refine ⟨s, hs, hsize, append_of_not_hasRoom howned ?_ fun hroom => ?_⟩
  · rw [hwidth]
    decide
  · rw [HasRoom, hsize] at hroom
    exact absurd hroom.1 (by decide)

end Sequence

end TripleStore
