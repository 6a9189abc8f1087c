import TripleStore.Proofs.Vbyte.Format

/-!
# Numbers have one shortest encoding

Every encoding ends with the byte that is marked, and none is marked before
(`Ended`), so that of two strings that begin alike, the one cannot go on where
the other ends (`Ended.eq_of_isPrefix`): numbers that stand one behind another
come apart again. Decoding admits more bytes than encoding writes, since the
groups at the top may be zero, but never fewer, and with as many bytes it leaves
no choice (`encode_exact`).
-/

namespace TripleStore.Vbyte

/-- The last byte, and no other, is marked as the last one. -/
inductive Ended : Bytes → Prop
  | last {b : UInt8} (hlast : isLast b = true) : Ended [b]
  | more {b : UInt8} {bytes : Bytes} (hmore : isLast b = false)
    (hrest : Ended bytes) : Ended (b :: bytes)

variable {bits j n used : Nat} {bytes front rest : Bytes}

/-! ## Where an encoding ends -/

theorem ended_encode (n : Nat) : Ended (encode n) := by
  induction n using encode.induct with
  | case1 n hlt =>
      rw [encode, if_pos hlt]
      exact .last (group_last hlt).2
  | case2 n hge ih =>
      rw [encode, if_neg hge]
      exact .more (group_more n).2 ih

theorem Ended.length_pos (h : Ended bytes) : 0 < bytes.length := by
  cases h <;> simp

/-- A string that ends is not the beginning of another. -/
theorem Ended.eq_of_isPrefix (hfront : Ended front) (hbytes : Ended bytes)
    (h : front <+: bytes) :
    front = bytes := by
  induction hfront generalizing bytes with
  | last hlast =>
      cases hbytes with
      | last _ => rw [(List.cons_prefix_cons.mp h).1]
      | more hmore _ =>
          rw [(List.cons_prefix_cons.mp h).1, hmore] at hlast
          cases hlast
  | more hmore hrest ih =>
      cases hbytes with
      | last hlast =>
          rw [(List.cons_prefix_cons.mp h).1, hlast] at hmore
          cases hmore
      | more _ hrest' =>
        rw [(List.cons_prefix_cons.mp h).1,
          ih hrest' (List.cons_prefix_cons.mp h).2]

theorem Ended.isLast_getD (h : Ended front) (rest : Bytes) :
    isLast ((front ++ rest).getD (front.length - 1) 0) = true := by
  induction h with
  | last hlast => exact hlast
  | more _ hrest ih =>
      obtain ⟨k, hk⟩ := Nat.exists_eq_succ_of_ne_zero hrest.length_pos.ne'
      rw [hk, Nat.succ_sub_one] at ih
      rw [List.length_cons, Nat.add_sub_cancel, hk, List.cons_append,
        List.getD_cons_succ]
      exact ih

/-- What ends cannot be gone past. -/
theorem Ended.not_goesBy (h : Ended front) (hj : front.length ≤ j) :
    ¬ GoesBy bits (front ++ rest) j := by
  intro hpast
  have hmarked := h.isLast_getD rest
  have hbefore : front.length - 1 < j :=
    Nat.lt_of_lt_of_le (Nat.sub_one_lt h.length_pos.ne') hj
  rw [(hpast _ hbefore).1] at hmarked
  cases hmarked

theorem ended_take (hpast : ∀ i < j, isLast (bytes.getD i 0) = false)
    (hj : j < bytes.length) (hlast : isLast (bytes.getD j 0) = true) :
    Ended (bytes.take (j + 1)) := by
  induction bytes generalizing j with
  | nil => cases hj
  | cons b bytes ih =>
      cases j with
      | zero => exact .last hlast
      | succ j =>
          exact .more (hpast 0 (Nat.succ_pos j))
            (ih (fun i hi => hpast (i + 1) (Nat.succ_lt_succ hi))
              (Nat.lt_of_succ_lt_succ hj) hlast)

/-! ## What the groups come to -/

theorem numeral_cons (b : UInt8) (bytes : Bytes) :
    numeral (b :: bytes) = group b + 128 * numeral bytes := by
  simp [numeral, Nat.ofDigits_cons]

theorem numeral_encode (n : Nat) : numeral (encode n) = n := by
  induction n using encode.induct with
  | case1 n hlt =>
      rw [encode, if_pos hlt, numeral_cons, (group_last hlt).1]
      rfl
  | case2 n hge ih =>
      rw [encode, if_neg hge, numeral_cons, (group_more n).1, ih,
        Nat.mod_add_div]

theorem eq_of_group_eq {b c : UInt8} (hgroup : group b = group c)
    (hlast : isLast b = isLast c) : b = c := by
  have hb := b.toNat_lt
  have hc := c.toNat_lt
  rw [isLast, isLast, decide_eq_decide] at hlast
  rw [group, group] at hgroup
  exact UInt8.toNat_inj.mp (by omega)

/-- As many groups that come to the same number are the same. -/
theorem Ended.eq_of_numeral_eq (hfront : Ended front) (hbytes : Ended bytes)
    (hlength : front.length = bytes.length)
    (h : numeral front = numeral bytes) : front = bytes := by
  induction hfront generalizing bytes with
  | @last b hlast =>
      obtain ⟨c, rfl⟩ := List.length_eq_one_iff.mp hlength.symm
      cases hbytes with
      | last hlast' =>
          rw [eq_of_group_eq (b := b) (c := c)
            (by simpa [numeral_cons, numeral] using h)
            (hlast.trans hlast'.symm)]
      | more _ hrest => cases hrest
  | @more b _ hmore hrest ih =>
      cases hbytes with
      | last _ => exact absurd (Nat.succ.inj hlength) hrest.length_pos.ne'
      | @more c _ hmore' hrest' =>
          rw [numeral_cons, numeral_cons] at h
          have hb := group_lt b
          have hc := group_lt c
          rw [eq_of_group_eq (b := b) (c := c) (by omega)
            (hmore.trans hmore'.symm),
            ih hrest' (Nat.succ.inj hlength) (by omega)]

theorem length_encode_le_iff {k : Nat} (hk : 0 < k) :
    (encode n).length ≤ k ↔ n < 128 ^ k := by
  induction n using encode.induct generalizing k with
  | case1 n hlt =>
      rw [encode, if_pos hlt]
      exact iff_of_true hk (Nat.lt_of_lt_of_le hlt (Nat.le_self_pow hk.ne' 128))
  | case2 n hge ih =>
      obtain ⟨k, rfl⟩ := Nat.exists_eq_succ_of_ne_zero hk.ne'
      rw [encode, if_neg hge, List.length_cons, Nat.succ_le_succ_iff,
        Nat.pow_succ, ← Nat.div_lt_iff_lt_mul (by decide)]
      rcases Nat.eq_zero_or_pos k with rfl | hpos
      · have hlength := (ended_encode (n / 128)).length_pos
        simp only [Nat.pow_zero]
        omega
      · exact ih hpos

/-! ## Decoding what was encoded -/

/-- What is decoded as a number ends, and its groups come to the number. -/
theorem of_decode_eq_ok (h : decode bits bytes = .ok (n, used)) :
    Ended (bytes.take used) ∧ numeral (bytes.take used) = n ∧
    used ≤ bytes.length ∧ n < capacity bits := by
  rw [decode_eq_parse] at h
  obtain ⟨hlt, hused⟩ := of_parse_eq_ok h
  rw [parse] at h
  split at h
  · cases h
  · next j hstop =>
      obtain ⟨hj, hdecides, hpast⟩ := stop?_eq_some_iff.mp hstop
      split at h
      · next hfits =>
          cases h
          exact ⟨ended_take (fun i hi => (hpast i hi).1) hj
            (hdecides.resolve_right (not_not_intro hfits)), rfl, hused, hlt⟩
      · cases h

/-- A string that ends is decoded by itself, whatever comes behind it, or is too
much. -/
theorem Ended.decode_append (h : Ended front) (bits : Nat) (rest : Bytes) :
    decode bits (front ++ rest) = .ok (numeral front, front.length) ∨
      decode bits (front ++ rest) =
        .error (.invalidEncoding (.vbyteOverflow bits)) := by
  cases hdecode : decode bits (front ++ rest) with
  | ok a =>
      obtain ⟨n, used⟩ := a
      obtain ⟨hended, rfl, hused, -⟩ := of_decode_eq_ok hdecode
      have heq : (front ++ rest).take used = front := by
        rcases List.prefix_or_prefix_of_prefix (List.take_prefix used _)
          (List.prefix_append front rest)
          with hprefix | hprefix
        · exact hended.eq_of_isPrefix h hprefix
        · exact (h.eq_of_isPrefix hended hprefix).symm
      have hlength := congrArg List.length heq
      rw [List.length_take, Nat.min_eq_left hused] at hlength
      exact .inl (by rw [heq, hlength])
  | error e =>
      rw [decode_eq_parse, parse] at hdecode
      split at hdecode
      · next hstop =>
          exact absurd (stop?_eq_none_iff.mp hstop) (h.not_goesBy (by simp))
      · split at hdecode
        · cases hdecode
        · exact .inr hdecode.symm

/-- An encoded number is decoded again, whatever comes behind it, unless it
reaches the bound. -/
theorem decode_encode (hbits : 0 < bits) (n : Nat) (rest : Bytes) :
    decode bits (encode n ++ rest) =
      if n < capacity bits then .ok (n, (encode n).length)
      else .error (.invalidEncoding (.vbyteOverflow bits)) := by
  have hcases := (ended_encode n).decode_append bits rest
  rw [numeral_encode] at hcases
  by_cases hn : n < capacity bits
  · rw [if_pos hn]
    refine hcases.resolve_right fun herror => ?_
    -- reading takes the same steps as decoding and has come to the number
    let s := Scan.State.ofSource
      (Source.ofBacking ⟨(encode n ++ rest).toArray, .heap⟩)
    have hrest : s.source.rest = encode n ++ rest := rfl
    obtain ⟨_, -, hread⟩ :=
      (reads_read hbits hn s.running).takes s.source s.warnings
      (Source.steady_ofBacking _) (hrest ▸ List.prefix_append _ _)
    have hreads := readsTo_read bits (encode n ++ rest) s
      (Source.steady_ofBacking _) hrest fun _ => rfl
    rw [herror] at hreads
    obtain ⟨t, hfail⟩ := hreads
    cases hread.symm.trans hfail
  · rw [if_neg hn]
    exact hcases.resolve_left fun hok => hn (of_decode_eq_ok hok).2.2.2

/-! ## Numbers one behind another -/

/-- Decodes so many numbers, each behind the one before, and leaves what comes
behind them. With each number stands how many bytes it takes. -/
def decodeMany (bits : Nat) :
    Nat → Bytes → Except Error (List (Nat × Nat) × Bytes)
  | 0, bytes => .ok ([], bytes)
  | count + 1, bytes => do
      let (n, used) ← decode bits bytes
      let (more, rest) ← decodeMany bits count (bytes.drop used)
      return ((n, used) :: more, rest)

/-- Reads so many numbers. -/
def readMany (bits : Nat) : Nat → Scan (List Nat)
  | 0 => pure []
  | count + 1 => do
      let n ← read bits
      let more ← readMany bits count
      return n :: more

theorem decodeMany_encode {values : List Nat} (hbits : 0 < bits)
    (hfits : ∀ n ∈ values, n < capacity bits) (rest : Bytes) :
    decodeMany bits values.length (values.flatMap encode ++ rest) =
      .ok (values.map fun n => (n, (encode n).length), rest) := by
  induction values with
  | nil => rfl
  | cons n values ih =>
      have hdecode := decode_encode hbits n (values.flatMap encode ++ rest)
      rw [if_pos (hfits n List.mem_cons_self)] at hdecode
      have hlater := ih fun m hm => hfits m (List.mem_cons_of_mem n hm)
      rw [List.flatMap_cons, List.append_assoc, List.length_cons,
        decodeMany, hdecode]
      simp [bind, Except.bind, pure, Except.pure, hlater]

theorem reads_readMany {values : List Nat} (hbits : 0 < bits)
    (hfits : ∀ n ∈ values, n < capacity bits) (r : Running) :
    Scan.Reads (readMany bits values.length) r (values.flatMap encode)
      (· = values) (r.absorb (values.flatMap encode)) := by
  induction values generalizing r with
  | nil => exact Scan.reads_pure (P := (· = [])) rfl r
  | cons n values ih =>
      rw [List.flatMap_cons, Running.absorb_append, List.length_cons, readMany]
      refine Scan.reads_bind (reads_read hbits (hfits n List.mem_cons_self) r) ?_
      rintro _ rfl
      refine Scan.reads_last
        (ih (fun m hm => hfits m (List.mem_cons_of_mem _ hm)) _) ?_
      rintro _ rfl
      exact Scan.reads_pure (P := (· = _)) rfl _

/-- The encoding of `v` takes one to ten bytes. No fewer bytes and no other of
the same number are decoded as `v`, and no encoding of another number begins
with them. -/
structure Shortest (v : UInt64) : Prop where
  length_pos : 1 ≤ (encode v.toNat).length
  length_le : (encode v.toNat).length ≤ 10
  none_shorter : ∀ (bytes : Bytes) (used : Nat),
    bytes.length < (encode v.toNat).length →
    decode 64 bytes ≠ .ok (v.toNat, used)
  no_other : ∀ bytes : Bytes, bytes.length = (encode v.toNat).length →
    decode 64 bytes = .ok (v.toNat, bytes.length) → bytes = encode v.toNat
  prefix_free : ∀ w : UInt64, encode v.toNat <+: encode w.toNat → v = w

theorem shortest (v : UInt64) : Shortest v where
  length_pos := (ended_encode v.toNat).length_pos
  length_le :=
    (length_encode_le_iff (by decide)).mpr
      (Nat.lt_of_lt_of_le v.toNat_lt (by decide))
  none_shorter := by
    intro bytes used hlength hdecode
    obtain ⟨hended, hvalue, hused, -⟩ := of_decode_eq_ok hdecode
    have htake : (bytes.take used).length ≤ bytes.length :=
      List.length_take_le' used bytes
    have hlt := hvalue ▸ numeral_lt (bytes.take used)
    have hle := (length_encode_le_iff hended.length_pos).mpr hlt
    omega
  no_other := by
    intro bytes hlength hdecode
    obtain ⟨hended, hvalue, -, -⟩ := of_decode_eq_ok hdecode
    rw [List.take_length] at hended hvalue
    exact hended.eq_of_numeral_eq (ended_encode v.toNat) hlength
      (hvalue.trans (numeral_encode _).symm)
  prefix_free := by
    intro w hprefix
    have heq :=
      (ended_encode v.toNat).eq_of_isPrefix (ended_encode w.toNat) hprefix
    have hvalue := congrArg numeral heq
    rw [numeral_encode, numeral_encode] at hvalue
    exact UInt64.toNat_inj.mp hvalue

/-- Bytes that encoding would not write are decoded as well, but there are more
of them. -/
example : decode 64 [0, 0x80] = .ok (0, 2) ∧ encode 0 = [0x80] := by
  decide +kernel

/-- Numbers that are encoded one behind another come back, with what stands
behind them left over, whether they are decoded or read, and each encoding is
the shortest there is. -/
theorem encode_exact (values : List UInt64) (rest : Bytes) :
    let bytes := (values.map UInt64.toNat).flatMap encode
    decodeMany 64 values.length (bytes ++ rest) =
        .ok (values.map fun v => (v.toNat, (encode v.toNat).length), rest) ∧
      (∀ s : Scan.State, s.source.Steady → s.source.rest = bytes ++ rest →
        readMany 64 values.length s =
          .ok (values.map UInt64.toNat) (s.past bytes) ∧
        (s.past bytes).source.rest = rest) ∧
      ∀ v, Shortest v := by
  intro bytes
  have hfits : ∀ n ∈ values.map UInt64.toNat, n < capacity 64 := by
    simp only [List.mem_map]
    rintro _ ⟨v, -, rfl⟩
    exact v.toNat_lt
  refine ⟨?_, ?_, shortest⟩
  · have hdecode := decodeMany_encode (by decide) hfits rest
    rwa [List.length_map, List.map_map] at hdecode
  · intro s hsteady hrest
    obtain ⟨_, rfl, hread⟩ :=
      (reads_readMany (by decide) hfits s.running).takes s.source
        s.warnings hsteady
      (hrest ▸ List.prefix_append bytes rest)
    rw [List.length_map] at hread
    refine ⟨hread, ?_⟩
    show (s.source.advance bytes.length).rest = rest
    rw [Source.rest_advance, hrest, List.drop_left]

/-- The largest number takes ten bytes, and what follows stays. -/
theorem encode_exact_largest :
    let bytes : Bytes :=
      [172, 127, 129, 127, 127, 127, 127, 127, 127, 127, 127, 127, 129, 85]
    decodeMany 64 3 bytes =
      .ok ([(44, 1), (255, 2), (18446744073709551615, 10)], [85]) ∧
    ∃ t, readMany 64 3 (.ofSource (.chunked bytes 1 .endOfFile)) =
      .ok [44, 255, 18446744073709551615] t ∧ t.source.rest = [85] := by
  intro bytes
  obtain ⟨hdecode, hread, -⟩ :=
    encode_exact [44, 255, 18446744073709551615] [85]
  have hbytes : ([44, 255, 18446744073709551615] : List Nat).flatMap encode ++
      [85] = bytes := by
    decide +kernel
  have hlengths : (encode 44).length = 1 ∧ (encode 255).length = 2 ∧
      (encode 18446744073709551615).length = 10 := by
    decide +kernel
  have hsteady := Source.steady_chunked bytes Nat.one_pos .endOfFile
  constructor
  · have hmany : decodeMany 64 3 bytes = _ := hbytes ▸ hdecode
    simpa [hlengths] using hmany
  · exact ⟨_, hread (.ofSource (.chunked bytes 1 .endOfFile)) hsteady
      hbytes.symm⟩

end TripleStore.Vbyte
