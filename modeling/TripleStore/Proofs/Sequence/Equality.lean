import TripleStore.Proofs.Sequence.Made

/-!
# When sequences are equal

Equality compares the words, and the last of them may hold more than the last
value. No value that is put into a sequence reaches there, but reading keeps
what it finds (`MadeClean`). So sequences are equal just if they have the same
values and the same bits behind them, and one is equal to what is read back of
it just if it has none (`equal_iff_strays`).
-/

namespace TripleStore.Sequence

variable {s t : Sequence}

/-! ## Values and what lies behind them -/

/-- The same width and the same values, which is all that can be asked of a
sequence. -/
structure Alike (s t : Sequence) : Prop where
  width : s.width = t.width
  size : s.size = t.size
  get : ∀ i, s.get i = t.get i

/-- Bit `p` is set although the last value ends before it. -/
def Stray (s : Sequence) (p : Nat) : Prop :=
  s.size * s.width ≤ p ∧ bitRow s.words.word p = true

theorem cleanFrom_size_iff : s.CleanFrom s.size ↔ ∀ p, ¬ s.Stray p := by
  simp [CleanFrom, Stray]

/-- Each bit before the end is one of a value. -/
theorem exists_value_bit {p : Nat} (hp : p < s.size * s.width) :
    ∃ i < s.size, ∃ k < s.width,
    p = i * s.width + k := by
  have hpos : 0 < s.width := Nat.pos_of_mul_pos_left (Nat.zero_lt_of_lt hp)
  exact ⟨p / s.width, (Nat.div_lt_iff_lt_mul hpos).mpr hp, p % s.width,
    Nat.mod_lt p hpos, (Nat.div_add_mod' p s.width).symm⟩

theorem value_of_get {i : Nat} (h : s.get i = t.get i) (hs : i < s.size)
    (ht : i < t.size) :
    s.value i = t.value i := by
  rw [get, get, if_pos hs, if_pos ht] at h
  exact Except.ok.inj h

theorem same_iff_alike : s.Same t ↔ s.Alike t := by
  constructor
  · exact fun h => ⟨h.width, h.size, h.get⟩
  · rintro ⟨hwidth, hsize, hget⟩
    refine ⟨hwidth, hsize, fun i => Word.ext fun k hk => ?_⟩
    rw [← TripleStore.bitRow_word s.word i hk,
      ← TripleStore.bitRow_word t.word i hk, bitRow_word, bitRow_word,
      ← hsize, ← hwidth]
    by_cases hp : Word.width * i + k < s.size * s.width
    · obtain ⟨j, hj, l, hl, hsplit⟩ := exists_value_bit hp
      have hbit : Word.bit (s.value j) l = Word.bit (t.value j) l := by
        rw [value_of_get (hget j) hj (hsize ▸ hj)]
      rw [bit_value, bit_value, ← hwidth, decide_eq_true hl, Bool.true_and,
        Bool.true_and] at hbit
      rw [hsplit, hbit]
    · rw [decide_eq_false hp, Bool.false_and, Bool.false_and]

theorem alike_of_toList (hwidth : s.width = t.width) (h : s.toList = t.toList) :
    s.Alike t := by
  have hsize : s.size = t.size := by simpa [toList] using congrArg List.length h
  refine ⟨hwidth, hsize, fun i => ?_⟩
  by_cases hi : i < s.size
  · have hvalue : s.value i = t.value i := by
      simpa [toList, hi, hsize ▸ hi] using congrArg (·[i]?) h
    rw [get, get, if_pos hi, if_pos (hsize ▸ hi), hvalue]
  · rw [get, get, if_neg hi, if_neg (hsize ▸ hi), hsize]

/-- Equality of sequences is equality of their words. -/
theorem beq_iff_copy : (s == t) = true ↔ s.Copy t := by
  refine ⟨fun h => ?_, Copy.beq⟩
  have h :
      (s.words == t.words && s.width == t.width && s.size == t.size) = true := h
  simp only [Bool.and_eq_true, beq_iff_eq, Words.beq_iff] at h
  obtain ⟨⟨⟨-, hword⟩, hwidth⟩, hsize⟩ := h
  exact ⟨hwidth, hsize, hword⟩

/-- Words are the same where the values are and what lies behind them is. -/
theorem copy_iff : s.Copy t ↔ s.Same t ∧ ∀ p, s.Stray p ↔ t.Stray p := by
  constructor
  · intro h
    refine ⟨h.same, fun p => ?_⟩
    rw [Stray, Stray, h.size, h.width, bitRow_congr h.word]
  · rintro ⟨hsame, hstray⟩
    refine ⟨hsame.width, hsame.size, fun i => Word.ext fun k hk => ?_⟩
    rw [← TripleStore.bitRow_word _ i hk, ← TripleStore.bitRow_word _ i hk]
    by_cases hp : Word.width * i + k < s.size * s.width
    · have hp' : Word.width * i + k < t.size * t.width :=
        hsame.size ▸ hsame.width ▸ hp
      have hrow := congrFun (bitRow_congr hsame.word) (Word.width * i + k)
      simpa only [bitRow_word, decide_eq_true hp, decide_eq_true hp',
        Bool.true_and] using hrow
    · have hiff := hstray (Word.width * i + k)
      rw [Stray, Stray, ← hsame.size, ← hsame.width] at hiff
      simp only [Nat.le_of_not_lt hp, true_and] at hiff
      exact Bool.eq_iff_iff.mpr hiff

theorem beq_iff : (s == t) = true ↔ s.Alike t ∧ ∀ p, s.Stray p ↔ t.Stray p := by
  rw [beq_iff_copy, copy_iff, same_iff_alike]

/-! ## Reading back -/

/-- What is read back has nothing behind its values. -/
theorem Trims.not_stray (h : s.Trims t) (p : Nat) : ¬ t.Stray p := by
  rintro ⟨hend, hbit⟩
  rw [← bitRow_congr h.word, bitRow_word, h.size, h.width,
    decide_eq_false (Nat.not_lt.mpr hend)] at hbit
  exact Bool.false_ne_true hbit

theorem reread_iff (hportable : s.Portable) :
    ∃ u, ofBytes s.toBytes = .ok u ∧ s.Alike u ∧
    ((u == s) = true ↔ ∀ p, ¬ s.Stray p) := by
  obtain ⟨u, htrims, hread⟩ := ofBytes_toBytes hportable
  have hsame := htrims.same
  refine ⟨u, hread, same_iff_alike.mp hsame, ?_⟩
  have hback : u.Alike s :=
    ⟨hsame.width.symm, hsame.size.symm, fun i => (hsame.get i).symm⟩
  simp [beq_iff, hback, htrims.not_stray]

/-! ## Where strays come from -/

/-- The sequence came about as any does, and if some bytes were read for it,
these had nothing behind the last value. -/
inductive MadeClean : Sequence → Prop
  | created {width : Nat} {s : Sequence}
    (h : create width = .ok s) : MadeClean s
  | packed (values : List UInt64) (hsize : values.length < capacity 64)
      (hbits : values.length * (ofList values).width < capacity 64) :
      MadeClean (ofList values)
  | appended {s t : Sequence} {value : UInt64} (hs : MadeClean s)
    (h : s.append value = .ok t) :
      MadeClean t
  | replaced {s t : Sequence} {i : Nat} {value : UInt64} (hs : MadeClean s)
      (h : s.set i value = .ok t) : MadeClean t
  | read {config : Config} {before after : Scan.State} {s : Sequence}
      (h : Sequence.read config before = .ok s after)
      (hclean : s.CleanFrom s.size) : MadeClean s

theorem CleanFrom.append (hs : s.CleanFrom s.size) {v : UInt64}
    (h : s.append v = .ok t) :
    t.CleanFrom t.size := by
  obtain ⟨howned, hfits, hroom, -, -, -⟩ := append_eq_ok h
  obtain ⟨u, happend, -, hcount, hput⟩ := append_of_fits howned hfits hroom
  obtain rfl : u = t := Except.ok.inj (happend.symm.trans h)
  rw [hcount]
  exact hput.clean (hs.mono (Nat.le_succ _)) (Nat.lt_succ_self _)

theorem CleanFrom.set (hs : s.CleanFrom s.size) {i : Nat} {v : UInt64}
    (h : s.set i v = .ok t) :
    t.CleanFrom t.size := by
  obtain ⟨hi, howned, hfits, -, -⟩ := set_eq_ok h
  obtain ⟨u, hset, -, hcount, hput⟩ := set_of_fits howned hi hfits
  obtain rfl : u = t := Except.ok.inj (hset.symm.trans h)
  rw [hcount]
  exact hput.clean hs hi

theorem MadeClean.made (h : s.MadeClean) : s.Made := by
  induction h with
  | created h => exact .created h
  | packed values hsize hbits => exact .packed values hsize hbits
  | appended _ h ih => exact .appended ih h
  | replaced _ h ih => exact .replaced ih h
  | read h _ => exact .read h

/-- Nothing that is put into a sequence comes to lie behind its values. -/
theorem MadeClean.cleanFrom (h : s.MadeClean) : s.CleanFrom s.size := by
  induction h with
  | @created width s h =>
      have hwidth : width ≤ Word.width := by
        by_contra hlarge
        rw [create, dif_neg hlarge] at h
        cases h
      obtain ⟨u, hcreate, -, hholds⟩ := holds_create hwidth
      obtain rfl : u = s := Except.ok.inj (hcreate.symm.trans h)
      exact hholds.clean
  | packed values _ _ => exact (holds_ofList values).clean
  | appended _ h ih => exact ih.append h
  | replaced _ h ih => exact ih.set h
  | read _ hclean => exact hclean

/-! ## Equality -/

/-- A sequence, however it came about, is equal to another just if their values
are the same and so is what lies behind these, which is nothing unless it was
read. What is read back has the same values and nothing behind them, and so it
is equal to what was written just if that had no strays. -/
theorem equal_iff_strays (hs : s.Made) (t : Sequence) :
    ((s == t) = true ↔ s.Alike t ∧ ∀ p, s.Stray p ↔ t.Stray p) ∧
    (∃ u, ofBytes s.toBytes = .ok u ∧ s.Alike u ∧
      ((u == s) = true ↔ ∀ p, ¬ s.Stray p)) ∧
    (s.MadeClean → ∀ p, ¬ s.Stray p) :=
  ⟨beq_iff, reread_iff hs.portable, fun h => cleanFrom_size_iff.mp h.cleanFrom⟩

/-- What was appended and what is left in a map are the same two values. -/
theorem equal_iff_strays_mapped :
    ∃ s₀ s₁ s t after, create 3 = .ok s₀ ∧ s₀.append 5 = .ok s₁ ∧
    s₁.append 1 = .ok s ∧
    read ⟨.spo, .mapped, .lazy, .crc32, true⟩
      (.ofSource (.ofBacking
        ⟨#[36, 84, 82, 73, 2, 1, 129, 136, 99, 104, 101, 99, 107, 115, 117, 109,
          133, 99, 114, 99, 51, 50, 132, 130, 3, 130, 13, 0, 0, 0, 0, 0, 0, 0,
          111, 46, 40, 218], .mapped⟩)) = .ok t after ∧
    s.Alike t ∧ (∀ p, ¬ t.Stray p) ∧ ∃ u, ofBytes s.toBytes = .ok u ∧
      (u == s) = true := by
  generalize hbacking :
    (⟨#[36, 84, 82, 73, 2, 1, 129, 136, 99, 104, 101, 99, 107, 115, 117, 109,
      133, 99, 114, 99, 51, 50, 132, 130, 3, 130, 13, 0, 0, 0, 0, 0, 0, 0, 111,
      46, 40, 218], .mapped⟩ : Backing) =
      backing
  have heval :
      (create 3 >>= fun s₀ => s₀.append 5 >>= fun s₁ => s₁.append 1 >>= fun s =>
      (Scan.run (read ⟨.spo, .mapped, .lazy, .crc32, true⟩)
        (.ofBacking backing)).1.result >>= fun t =>
        .ok (s == t)).toOption = some true := by
    rw [← hbacking]
    decide +kernel
  obtain ⟨s₀, hcreate, heval⟩ := bind_eq_ok.mp (toOption_eq_some.mp heval)
  obtain ⟨s₁, hfirst, heval⟩ := bind_eq_ok.mp heval
  obtain ⟨s, hsecond, heval⟩ := bind_eq_ok.mp heval
  obtain ⟨t, hread, heval⟩ := bind_eq_ok.mp heval
  have hequal : (s == t) = true := Except.ok.inj heval
  obtain ⟨after, hread⟩ := Scan.run_eq_ok.mp hread
  have hclean : s.MadeClean :=
    .appended (.appended (.created hcreate) hfirst) hsecond
  obtain ⟨hiff, ⟨u, hu, -, hback⟩, htidy⟩ := equal_iff_strays hclean.made t
  obtain ⟨halike, hstray⟩ := hiff.mp hequal
  exact ⟨s₀, s₁, s, t, after, hcreate, hfirst, hsecond, hread, halike,
    fun p hp => htidy hclean p ((hstray p).mpr hp), u, hu,
      hback.mpr (htidy hclean)⟩

/-- Five and one in three bits, with the bit behind them set. -/
theorem unequal_of_stray :
    ∃ s,
      (ofBytes [36, 84, 82, 73, 2, 1, 129, 136, 99, 104, 101, 99, 107, 115, 117,
        109, 133, 99, 114, 99, 51, 50, 132, 130, 3, 130, 77, 0, 0, 0, 0, 0, 0,
        0, 93, 229, 40, 192]).result =
      .ok s ∧ s.Alike (ofList [5, 1]) ∧ (s == ofList [5, 1]) = false ∧
      ∃ u, (ofBytes s.toBytes).result = .ok u ∧ (u == s) = false := by
  have heval :
      ((ofBytes [36, 84, 82, 73, 2, 1, 129, 136, 99, 104, 101, 99, 107, 115,
        117, 109, 133, 99, 114, 99, 51, 50, 132, 130, 3, 130, 77, 0, 0, 0, 0, 0,
        0, 0, 93, 229, 40, 192]).result >>= fun s =>
        (ofBytes s.toBytes).result >>= fun u =>
          .ok (s.width, s.toList, s == ofList [5, 1], u == s)).toOption =
            some (3, [5, 1], false, false) := by decide +kernel
  obtain ⟨s, hs, heval⟩ := bind_eq_ok.mp (toOption_eq_some.mp heval)
  obtain ⟨u, hu, heval⟩ := bind_eq_ok.mp heval
  simp only [Except.ok.injEq, Prod.mk.injEq] at heval
  obtain ⟨hwidth, hlist, hne, hback⟩ := heval
  have halike : s.Alike (ofList [5, 1]) :=
    alike_of_toList hwidth (hlist.trans (toList_ofList _).symm)
  exact ⟨s, hs, halike, hne, u, hu, hback⟩

end TripleStore.Sequence
