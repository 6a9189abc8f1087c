import Mathlib.Data.List.GetD
import Mathlib.Data.Nat.Digits.Defs
import TripleStore.Proofs.Bytes.Passes
import TripleStore.Proofs.Vbyte

/-!
# What is read as a number

Of any bytes, the first decides that is marked as the last one or whose group
does not fit, and if there is none, the bytes have run out (`parse`). Decoding
goes past the bytes before it one by one (`decode_eq_decodeFrom`), and reading
takes the same steps in whatever pieces the bytes come (`readsTo_readFrom`), so
that both come to what the format says (`decode_exact`).
-/

namespace TripleStore.Vbyte

/-- Group number `i` lies within `bits` bits. -/
def Fits (bits i : Nat) (b : UInt8) : Prop :=
  7 * i < bits ∧ group b * capacity (7 * i) < capacity bits

instance (bits i : Nat) (b : UInt8) : Decidable (Fits bits i b) :=
  inferInstanceAs (Decidable (_ ∧ _))

/-- The place of the first byte that is marked as the last one or whose group
does not fit. -/
def stop? (bits : Nat) (bytes : Bytes) : Option Nat :=
  (List.range bytes.length).find? fun i =>
    isLast (bytes.getD i 0) || !decide (Fits bits i (bytes.getD i 0))

/-- The number whose groups stand in the bytes, the lowest first. -/
def numeral (bytes : Bytes) : Nat := Nat.ofDigits 128 (bytes.map group)

/-- What the format makes of bytes: a number and how many bytes it takes, or
what is wrong. -/
def parse (bits : Nat) (bytes : Bytes) : Except Error (Nat × Nat) :=
  match stop? bits bytes with
  | none => .error .endOfStream
  | some j =>
    if Fits bits j (bytes.getD j 0) then
      .ok (numeral (bytes.take (j + 1)), j + 1)
    else .error (.invalidEncoding (.vbyteOverflow bits))

variable {bits j n used : Nat} {bytes : Bytes}

/-! ## The byte that decides -/

/-- The bytes before number `j` go by: each is followed by another and fits. -/
def GoesBy (bits : Nat) (bytes : Bytes) (j : Nat) : Prop :=
  ∀ i < j, isLast (bytes.getD i 0) = false ∧ Fits bits i (bytes.getD i 0)

theorem stop?_eq_none_iff :
    stop? bits bytes = none ↔ GoesBy bits bytes bytes.length := by
  simp [stop?, GoesBy]

theorem stop?_eq_some_iff : stop? bits bytes = some j ↔ j < bytes.length ∧
    (isLast (bytes.getD j 0) = true ∨ ¬ Fits bits j (bytes.getD j 0)) ∧
    GoesBy bits bytes j := by
  simp [stop?, GoesBy, List.find?_range_eq_some]
  grind

/-! ## Decoding -/

theorem group_lt (b : UInt8) : group b < 128 := Nat.mod_lt _ (by decide)

theorem capacity_mul_seven (n : Nat) : capacity (7 * n) = 128 ^ n := by
  induction n with
  | zero => rfl
  | succ n ih =>
      rw [Nat.mul_succ, capacity_add, ih, Nat.pow_succ]
      rfl

theorem numeral_lt (bytes : Bytes) : numeral bytes < 128 ^ bytes.length := by
  have h := Nat.ofDigits_lt_base_pow_length (b := 128) (l := bytes.map group)
    (by decide) (by simp [group_lt])
  rwa [List.length_map] at h

theorem numeral_take_succ (h : j < bytes.length) :
    numeral (bytes.take (j + 1)) =
    numeral (bytes.take j) + group (bytes.getD j 0) * capacity (7 * j) := by
  have hlength : (bytes.take j).length = j := by simp [Nat.le_of_lt h]
  rw [numeral, numeral, List.take_succ_eq_append_getElem h, List.map_append,
    Nat.ofDigits_append, List.map_singleton, Nat.ofDigits_singleton,
    List.length_map, hlength, capacity_mul_seven,
    List.getD_eq_getElem bytes 0 h, Nat.mul_comm]

/-- What has been read when `j` bytes have gone by. -/
def passed (bytes : Bytes) (j : Nat) : Partial :=
  ⟨numeral (bytes.take j), 7 * j⟩

theorem push_passed (hj : j < bytes.length)
    (hfits : Fits bits j (bytes.getD j 0)) :
    (passed bytes j).push bits (bytes.getD j 0) =
      .ok (passed bytes (j + 1)) := by
  rw [push_eq hfits.1 hfits.2, passed, passed, numeral_take_succ hj,
    Nat.mul_succ]

theorem drop_eq_getD_cons (hj : j < bytes.length) :
    bytes.drop j = bytes.getD j 0 :: bytes.drop (j + 1) := by
  rw [List.getD_eq_getElem bytes 0 hj, List.drop_eq_getElem_cons hj]

/-- Decoding goes past the bytes that do not decide. -/
theorem decode_eq_decodeFrom (hj : j ≤ bytes.length) (h : GoesBy bits bytes j) :
    decode bits bytes = decodeFrom bits (passed bytes j) j (bytes.drop j) := by
  induction j with
  | zero => rfl
  | succ j ih =>
      obtain ⟨hlast, hfits⟩ := h j (Nat.lt_succ_self j)
      rw [ih (Nat.le_of_lt hj) fun i hi => h i (Nat.lt_succ_of_lt hi),
        drop_eq_getD_cons hj, decodeFrom, push_passed hj hfits]
      exact if_neg (by rw [hlast]; exact Bool.false_ne_true)

theorem decode_eq_parse (bits : Nat) (bytes : Bytes) :
    decode bits bytes = parse bits bytes := by
  rw [parse]
  split
  · next hstop =>
      rw [decode_eq_decodeFrom (Nat.le_refl _) (stop?_eq_none_iff.mp hstop),
        List.drop_length]
      rfl
  · next j hstop =>
      obtain ⟨hj, hdecides, hpast⟩ := stop?_eq_some_iff.mp hstop
      rw [decode_eq_decodeFrom (Nat.le_of_lt hj) hpast,
        drop_eq_getD_cons hj, decodeFrom]
      by_cases hfits : Fits bits j (bytes.getD j 0)
      · rw [push_passed hj hfits, if_pos hfits]
        exact if_pos (hdecides.resolve_right (not_not_intro hfits))
      · rw [if_neg hfits, Partial.push, if_pos]
        · rfl
        · rw [Fits] at hfits
          show bits ≤ 7 * j ∨
            capacity bits ≤ group (bytes.getD j 0) * capacity (7 * j)
          omega

/-- A number that is read lies below the bound, and its bytes are there. -/
theorem of_parse_eq_ok (h : parse bits bytes = .ok (n, used)) :
    n < capacity bits ∧ used ≤ bytes.length := by
  rw [parse] at h
  split at h
  · cases h
  · next j hstop =>
      obtain ⟨hj, -, -⟩ := stop?_eq_some_iff.mp hstop
      split at h
      · next hfits =>
          cases h
          have hbefore :
              (passed bytes j).value < capacity (passed bytes j).shift := by
            have hlt := numeral_lt (bytes.take j)
            rw [List.length_take, Nat.min_eq_left (Nat.le_of_lt hj),
              ← capacity_mul_seven] at hlt
            exact hlt
          exact ⟨(Partial.value_lt_of_push hbefore (push_passed hj hfits)).2, hj⟩
      · cases h

/-! ## Reading -/

/-- Where `bytes` are left, and in whatever pieces the source yields them, the
scan comes to `answer`: to the number, when it has passed over the bytes that
this takes, or to the error. Where the bytes run out, the source has to say so
and not fail. -/
def ReadsTo (act : Scan Nat) (bytes : Bytes)
    (answer : Except Error (Nat × Nat)) : Prop :=
  ∀ s : Scan.State, s.source.Steady → s.source.rest = bytes →
    (answer = .error .endOfStream → s.source.ending = .endOfFile) →
    match answer with
    | .ok (n, used) => act s = .ok n (s.past (bytes.take used))
    | .error e => ∃ t, act s = .error e t

theorem byte_eq {s : Scan.State} {b : UInt8} (hsteady : s.source.Steady)
    (hrest : s.source.rest = b :: bytes) :
    Scan.byte s = .ok b (s.past [b]) := by
  obtain ⟨_, rfl, hread⟩ :=
    (Scan.reads_byte b s.running).takes s.source s.warnings hsteady
    (hrest ▸ List.prefix_append [b] bytes)
  exact hread

theorem readsTo_nil {f : UInt8 → Scan Nat} :
    ReadsTo (Scan.byte >>= f) [] (.error .endOfStream) := by
  intro s hsteady hrest hend
  obtain ⟨t, hbyte⟩ := (Scan.reads_byte 0 s.running).starves s.source s.warnings
    ⟨hsteady, hend rfl, hrest ▸ List.nil_prefix, by simp [hrest]⟩
  exact ⟨t, Scan.bind_eq_error.mpr (.inl hbyte)⟩

theorem readsTo_cons {b : UInt8} {f : UInt8 → Scan Nat}
    {answer : Except Error (Nat × Nat)} (h : ReadsTo (f b) bytes answer) :
    ReadsTo (Scan.byte >>= f) (b :: bytes) (answer.map fun a =>
      (a.1, a.2 + 1)) := by
  intro s hsteady hrest hend
  have hbyte := byte_eq hsteady hrest
  have hone : [b].length ≤ s.source.rest.length := by simp [hrest]
  have hlater := h (s.past [b]) (hsteady.advance hone)
    (by show (s.source.advance 1).rest = bytes; rw [Source.rest_advance, hrest]; rfl)
  rw [Scan.bind_of_ok hbyte]
  cases answer with
  | error e => exact hlater fun he => hend (by rw [he]; rfl)
  | ok a =>
      obtain ⟨n, used⟩ := a
      have hread :
          f b (s.past [b]) = .ok n ((s.past [b]).past (bytes.take used)) :=
            hlater (by simp)
      rwa [Scan.State.past_past] at hread

theorem readsTo_error {e : Error} (bytes : Bytes) :
    ReadsTo (throw e) bytes (.error e) :=
  fun s _ _ _ => ⟨s, rfl⟩

theorem readsTo_pure (n : Nat) (bytes : Bytes) :
    ReadsTo (pure n) bytes (.ok (n, 0)) :=
  fun _ _ _ _ => rfl

/-- Bytes that were taken before are only counted. -/
theorem decodeFrom_add (p : Partial) (k : Nat) (bytes : Bytes) :
    decodeFrom bits p k bytes = (decodeFrom bits p 0 bytes).map fun a =>
      (a.1, a.2 + k) := by
  induction bytes generalizing p k with
  | nil => rfl
  | cons b bytes ih =>
      rw [decodeFrom, decodeFrom]
      cases p.push bits b with
      | error e => rfl
      | ok q =>
          simp only [bind, Except.bind, pure, Except.pure]
          split
          · simp [Except.map, Nat.add_comm]
          · rw [ih q (k + 1), ih q (0 + 1)]
            cases decodeFrom bits q 0 bytes with
            | error e => rfl
            | ok a => simp [Except.map, Nat.add_comm, Nat.add_left_comm]

theorem decodeFrom_cons (p : Partial) (b : UInt8) (bytes : Bytes) :
    decodeFrom bits p 0 (b :: bytes) = Except.map (fun a => (a.1, a.2 + 1))
      (match p.push bits b with
      | .error e => .error e
      | .ok q =>
        if isLast b then .ok (q.value, 0) else decodeFrom bits q 0 bytes) := by
  rw [decodeFrom]
  cases p.push bits b with
  | error e => rfl
  | ok q =>
      simp only [bind, Except.bind, pure, Except.pure]
      split
      · rfl
      · rw [decodeFrom_add]

theorem readFrom_eq (p : Partial) :
    readFrom bits p = Scan.byte >>= fun b => match p.push bits b with
    | .error e => throw e
    | .ok q => if isLast b then pure q.value else readFrom bits q := by
  rw [readFrom]
  congr 1
  funext b
  split
  · next h => rw [h]
  · next h => rw [h]

/-- Reading and decoding take the same steps. -/
theorem readsTo_readFrom (p : Partial) (bytes : Bytes) :
    ReadsTo (readFrom bits p) bytes (decodeFrom bits p 0 bytes) := by
  induction bytes generalizing p with
  | nil =>
      rw [readFrom_eq]
      exact readsTo_nil
  | cons b bytes ih =>
      rw [readFrom_eq, decodeFrom_cons]
      apply readsTo_cons
      cases p.push bits b with
      | error e => exact readsTo_error bytes
      | ok q =>
          dsimp only
          split
          · exact readsTo_pure q.value bytes
          · exact ih q

/-- Reading comes to what decoding comes to. -/
theorem readsTo_read (bits : Nat) (bytes : Bytes) :
    ReadsTo (read bits) bytes (decode bits bytes) :=
  readsTo_readFrom .empty bytes

/-- Decoding comes to what the format says of the bytes, and so does reading
from any source that yields them; and a number that comes of them lies below the
bound. -/
theorem decode_exact (bits : Nat) (bytes : Bytes) :
    decode bits bytes = parse bits bytes ∧
    ReadsTo (read bits) bytes (parse bits bytes) ∧
      ∀ n used, parse bits bytes = .ok (n, used) → n < capacity bits ∧
        used ≤ bytes.length := by
  have hparse := decode_eq_parse bits bytes
  refine ⟨hparse, ?_, fun n used h => of_parse_eq_ok h⟩
  rw [← hparse]
  exact readsTo_read bits bytes

/-- Ten groups hold the largest number of 64 bits, and the fifth is too much for
32. -/
theorem decode_exact_largest :
    let bytes : Bytes := [127, 127, 127, 127, 127, 127, 127, 127, 127, 129, 85]
    decode 64 bytes = .ok (18446744073709551615, 10) ∧
    decode 32 bytes = .error (.invalidEncoding (.vbyteOverflow 32)) ∧
    ∃ t, read 64 (.ofSource (.chunked bytes 1 .endOfFile)) =
      .ok 18446744073709551615 t ∧
      t.source.rest = [85] := by
  intro bytes
  have hparse : parse 64 bytes = .ok (18446744073709551615, 10) := by
    decide +kernel
  have hparse' :
      parse 32 bytes = .error (.invalidEncoding (.vbyteOverflow 32)) := by
        decide +kernel
  obtain ⟨hdecode, hread, hbound⟩ := decode_exact 64 bytes
  obtain ⟨hdecode', -, -⟩ := decode_exact 32 bytes
  rw [hparse] at hdecode hread
  rw [hparse'] at hdecode'
  have hsteady := Source.steady_chunked bytes Nat.one_pos .endOfFile
  have hrun := hread (.ofSource (.chunked bytes 1 .endOfFile)) hsteady rfl
    fun _ => rfl
  exact ⟨hdecode, hdecode', _, hrun, rfl⟩

end TripleStore.Vbyte
