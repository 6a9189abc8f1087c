import TripleStore.Proofs.Words
import TripleStore.Section.Header

/-!
# What reading passes over

Reading that neither starts the running checksum anew nor compares it passes
over bytes, which the checksum takes in, and says nothing on the way, whether it
succeeds or fails. It does so wherever the bytes are kept: what is read from a
backing and from one that lies elsewhere can differ only in the words that are
left where they are (`Passes`).
-/

namespace TripleStore

/-! ## Backings that lie elsewhere -/

/-- The same source with its bytes kept elsewhere. -/
def Source.moved (source : Source) (residence : Residence) : Source :=
  { source with backing := { source.backing with residence } }

theorem Source.read_moved (source : Source) (residence : Residence) (n : Nat) :
    (source.moved residence).read n =
      (source.read n).map fun found => (found.1, found.2.moved residence) := by
  by_cases h : n ≠ 0 ∧ source.atEnd ∧ source.ending = .failure
  · have hread : source.read n = .error (.io .failed) := if_pos h
    have hmoved : (source.moved residence).read n = .error (.io .failed) := if_pos h
    rw [hread, hmoved]
    rfl
  · have hread : source.read n =
        .ok (source.backing.slice source.position (source.grant n),
          source.advance (source.grant n)) := if_neg h
    have hmoved : (source.moved residence).read n =
        .ok (source.backing.slice source.position (source.grant n),
          (source.advance (source.grant n)).moved residence) := if_neg h
    rw [hread, hmoved]
    rfl

theorem Source.grant_le (source : Source) (n : Nat) :
    source.grant n ≤ n ∧ source.grant n ≤ source.rest.length := by
  rw [length_rest, grant]
  omega

theorem Source.length_take_grant (source : Source) (n : Nat) :
    (source.rest.take (source.grant n)).length = source.grant n :=
  List.length_take_of_le (source.grant_le n).2

theorem Backing.wordAt_congr {b c : Backing} (h : c.bytes = b.bytes)
    (start : Nat) :
    c.wordAt start = b.wordAt start := by
  rw [wordAt, wordAt, slice, slice, h]

/-- What comes next behind what comes next. -/
theorem Source.append_prefix_rest {source : Source} {p q : Bytes}
    (hp : p <+: source.rest) (hq : q <+: (source.advance p.length).rest) :
    p ++ q <+: source.rest := by
  obtain ⟨c, hc⟩ := hp
  rw [rest_advance, ← hc, List.drop_left] at hq
  rwa [← hc, List.prefix_append_right_inj]

namespace Scan

variable {α β γ δ : Type}

def State.moved (s : State) (residence : Residence) : State :=
  { s with source := s.source.moved residence }

/-- The state when `bytes` have been passed over. -/
def State.past (s : State) (bytes : Bytes) : State :=
  ⟨s.source.advance bytes.length, s.running.absorb bytes, s.warnings⟩

theorem State.past_past (s : State) (p q : Bytes) :
    (s.past p).past q = s.past (p ++ q) := by
  rw [past, past, past, Source.advance_advance, ← Running.absorb_append,
    List.length_append]

/-! ## Scans that pass over bytes -/

/-- The two scans, of the same bytes in two places, pass over the same bytes and
have values that are related to these bytes and to each other, or they fail
alike. Either way they say nothing. -/
def Passes (P : Bytes → α → β → Prop) (act : Scan α) (act' : Scan β) : Prop :=
  ∀ s residence,
    (∃ bytes a b, P bytes a b ∧ bytes <+: s.source.rest ∧
      act s = .ok a (s.past bytes) ∧
      act' (s.moved residence) = .ok b ((s.past bytes).moved residence)) ∨
    ∃ e t, t.warnings = s.warnings ∧ act s = .error e t ∧
      act' (s.moved residence) = .error e (t.moved residence)

/-- The scan passes over bytes and has the same value wherever they are kept. -/
def Plain (act : Scan α) : Prop := Passes (fun _ => Eq) act act

variable {P P' : Bytes → α → β → Prop} {Q : Bytes → γ → δ → Prop} {act : Scan α}
  {act' : Scan β} {f : α → Scan γ} {f' : β → Scan δ} {g : α → Scan γ}

theorem Passes.imp (h : Passes P act act')
    (himp : ∀ bytes a b, P bytes a b → P' bytes a b) :
    Passes P' act act' := by
  intro s residence
  rcases h s residence with ⟨bytes, a, b, hP, hact⟩ | herror
  · exact .inl ⟨bytes, a, b, himp bytes a b hP, hact⟩
  · exact .inr herror

/-- A scan that comes to its end has passed over what came next. -/
theorem Passes.ok (h : Passes P act act') {s s' : State} {a : α}
    (ha : act s = .ok a s') :
    ∃ bytes b, P bytes a b ∧ bytes <+: s.source.rest ∧ s' = s.past bytes := by
  rcases h s .heap with ⟨bytes, _, b, hP, hnext, hact, -⟩ | ⟨e, t, -, hact, -⟩
  · rw [ha] at hact
    cases hact
    exact ⟨bytes, b, hP, hnext, rfl⟩
  · rw [ha] at hact
    cases hact

/-- A scan that fails has said nothing either. -/
theorem Passes.error (h : Passes P act act') {s s' : State} {e : Error}
    (he : act s = .error e s') :
    s'.warnings = s.warnings := by
  rcases h s .heap with ⟨bytes, b, -, -, -, hact, -⟩ |
    ⟨e, t, hwarnings, hact, -⟩
  · rw [he] at hact
    cases hact
  · rw [he] at hact
    cases hact
    exact hwarnings

theorem passes_pure {a : α} {b : β} (h : P [] a b) :
    Passes P (pure a) (pure b) :=
  fun _ _ => .inl ⟨[], a, b, h, List.nil_prefix, rfl, rfl⟩

theorem passes_throw (e : Error) : Passes P (throw e) (throw e) :=
  fun s _ => .inr ⟨e, s, rfl, rfl, rfl⟩

theorem passes_bind (hact : Passes P act act')
    (hf : ∀ bytes a b, P bytes a b →
      Passes (fun more => Q (bytes ++ more)) (f a) (f' b)) :
    Passes Q (act >>= f) (act' >>= f') := by
  intro s residence
  rcases hact s residence with ⟨p, a, b, hP, hp, hact, hact'⟩ |
    ⟨e, t, hwarnings, hact, hact'⟩
  · rcases hf p a b hP (s.past p) residence with
      ⟨q, c, d, hQ, hq, hf, hf'⟩ | ⟨e, t, hwarnings, hf, hf'⟩
    · refine .inl ⟨p ++ q, c, d, hQ, Source.append_prefix_rest hp hq, ?_, ?_⟩
      · exact bind_eq_ok.mpr ⟨a, _, hact, State.past_past s p q ▸ hf⟩
      · exact bind_eq_ok.mpr ⟨b, _, hact', State.past_past s p q ▸ hf'⟩
    · exact .inr ⟨e, t, hwarnings, bind_eq_error.mpr (.inr ⟨a, _, hact, hf⟩),
        bind_eq_error.mpr (.inr ⟨b, _, hact', hf'⟩)⟩
  · exact .inr ⟨e, t, hwarnings, bind_eq_error.mpr (.inl hact),
      bind_eq_error.mpr (.inl hact')⟩

theorem plain_pure (a : α) : Plain (pure a : Scan α) := passes_pure rfl

theorem plain_throw (e : Error) : Plain (throw e : Scan α) := passes_throw e

theorem plain_lift (r : Except Error α) : Plain (liftM r : Scan α) := by
  cases r with
  | ok a => exact plain_pure a
  | error e => exact plain_throw e

theorem plain_bind (hact : Plain act) (hg : ∀ a, Plain (g a)) :
    Plain (act >>= g) :=
  passes_bind hact fun _ a _ h => h ▸ hg a

/-! ## Reading bytes -/

theorem passes_read (n : Nat) :
    Passes (fun bytes a b => a = bytes ∧ b = bytes ∧ bytes.length ≤ n) (read n)
      (read n) := by
  intro s residence
  have hmoved := s.source.read_moved residence n
  by_cases h : n ≠ 0 ∧ s.source.atEnd ∧ s.source.ending = .failure
  · have hread : s.source.read n = .error (.io .failed) := if_pos h
    rw [hread] at hmoved
    refine .inr ⟨.io .failed, s, rfl, ?_, ?_⟩
    · rw [read, hread]
    · rw [read, State.moved, hmoved]
      rfl
  · have hread := s.source.read_eq n h
    rw [hread] at hmoved
    have hlength := s.source.length_take_grant n
    refine .inl ⟨s.source.rest.take (s.source.grant n), _, _,
      ⟨rfl, rfl, Nat.le_trans (Nat.le_of_eq hlength) (s.source.grant_le n).1⟩,
      List.take_prefix _ _, ?_, ?_⟩
    · rw [read, hread, State.past, hlength]
    · rw [read, State.moved, hmoved, State.past, hlength]
      rfl

/-- However the source cuts the bytes up, they come one behind another. -/
theorem passes_readMore (got : Array UInt8) (n : Nat) :
    Passes (fun bytes a b => a = got.toList ++ bytes ∧ b = a ∧
      bytes.length = n) (readMore got n)
      (readMore got n) := by
  induction n using Nat.strongRecOn generalizing got with
  | ind n ih =>
      rw [readMore]
      split
      · next hzero =>
          exact passes_pure ⟨(List.append_nil _).symm, rfl, hzero.symm⟩
      · refine passes_bind (passes_read n) ?_
        rintro _ _ next ⟨rfl, rfl, hle⟩
        split
        · exact passes_throw _
        · next hne =>
            have hpos := List.length_pos_iff.mpr hne
            refine (ih (n - next.length) (by omega) (got ++ next)).imp ?_
            rintro more _ _ ⟨rfl, rfl, hlength⟩
            refine ⟨by rw [Array.toList_appendList, List.append_assoc], rfl, ?_⟩
            rw [List.length_append, hlength, Nat.add_sub_cancel' hle]

theorem passes_readExact (n : Nat) :
    Passes (fun bytes a b => a = bytes ∧ b = a ∧ bytes.length = n) (readExact n)
      (readExact n) :=
  passes_readMore #[] n

theorem plain_readExact (n : Nat) : Plain (readExact n) :=
  (passes_readExact n).imp fun _ _ _ h => h.2.1.symm

theorem plain_byte : Plain byte :=
  plain_bind (plain_readExact 1) fun bytes => plain_pure (bytes.headD 0)

/-! ## Trailers -/

/-- The state when `bytes` have been passed over that are kept out of the
running checksum. -/
def State.beside (s : State) (bytes : Bytes) : State :=
  { s with source := s.source.advance bytes.length }

/-- A trailer is compared with the running checksum, which stays as it is, or
cannot be read. -/
theorem verify_cases (s : State) (residence : Residence) :
    (∃ found, found <+: s.source.rest ∧
      verify s = .ok (found == s.running.trailer) (s.beside found) ∧
      verify (s.moved residence) =
        .ok (found == s.running.trailer) ((s.beside found).moved residence)) ∨
    ∃ e t, t.warnings = s.warnings ∧ verify s = .error e t ∧
      verify (s.moved residence) = .error e (t.moved residence) := by
  rcases passes_readExact s.running.kind.width s residence with
    ⟨_, _, found, ⟨rfl, rfl, -⟩, hnext, hread, hread'⟩ |
      ⟨e, t, hwarnings, hread, hread'⟩
  · refine .inl ⟨found, hnext, ?_, ?_⟩
    · refine bind_eq_ok.mpr
        ⟨s, s, rfl, bind_eq_ok.mpr ⟨found, s.beside found, ?_, rfl⟩⟩
      rw [skip, aside, hread]
      rfl
    · refine bind_eq_ok.mpr
        ⟨_, _, rfl, bind_eq_ok.mpr
          ⟨found, (s.beside found).moved residence, ?_, rfl⟩⟩
      show skip s.running.kind.width (s.moved residence) = _
      rw [skip, aside, hread']
      rfl
  · refine .inr ⟨e, { t with running := s.running }, hwarnings, ?_, ?_⟩
    · refine bind_eq_error.mpr (.inr ⟨s, s, rfl, bind_eq_error.mpr (.inl ?_)⟩)
      rw [skip, aside, hread]
    · refine bind_eq_error.mpr (.inr ⟨_, _, rfl, bind_eq_error.mpr (.inl ?_)⟩)
      show skip s.running.kind.width (s.moved residence) = _
      rw [skip, aside, hread']
      rfl

/-- A check that is insisted on matches if it is passed over. -/
theorem closePart_eq_ok {part : Section.Part} {s s' : State} {u : Unit}
    (h : closePart part true s = .ok u s') :
    s.running.trailer <+: s.source.rest ∧
      s'.source = s.source.advance s.running.trailer.length := by
  obtain ⟨matching, s₁, hverify, hend⟩ := bind_eq_ok.mp h
  rcases verify_cases s .heap with ⟨found, hnext, hfound, -⟩ |
    ⟨e, t, -, hfailed, -⟩
  · rw [hfound] at hverify
    cases hverify
    by_cases hmatch : (found == s.running.trailer) = true
    · rw [if_pos hmatch] at hend
      cases hend
      obtain rfl : found = s.running.trailer := beq_iff_eq.mp hmatch
      exact ⟨hnext, rfl⟩
    · rw [if_neg hmatch, if_pos rfl] at hend
      cases hend
  · rw [hfailed] at hverify
    cases hverify

/-! ## Words that are left where they are -/

theorem range_of_lt {s : State} {n : Nat}
    (h : s.source.backing.size < s.source.position + n) :
    range n s = .error .endOfStream s :=
  bind_eq_error.mpr (.inr ⟨s, s, rfl, congrFun (if_pos h) s⟩)

theorem range_of_not_lt {s : State} {n : Nat}
    (h : ¬ s.source.backing.size < s.source.position + n) :
    range n s = .ok (s.source.backing, s.source.position)
      (s.past (s.source.rest.take n)) := by
  have hlength : (s.source.rest.take n).length = n := by
    rw [List.length_take, Source.length_rest]
    omega
  refine bind_eq_ok.mpr ⟨s, s, rfl, (congrFun (if_neg h) s).trans ?_⟩
  rw [State.past, hlength, Source.rest, ← s.source.backing.slice_eq]
  rfl

theorem passes_range (n : Nat) :
    Passes (fun _ found found' => found'.1.bytes = found.1.bytes ∧
      found'.2 = found.2) (range n)
      (range n) := by
  intro s residence
  by_cases hroom : s.source.backing.size < s.source.position + n
  · exact .inr ⟨.endOfStream, s, rfl, range_of_lt hroom,
      range_of_lt (s := s.moved residence) hroom⟩
  · exact .inl ⟨s.source.rest.take n, (s.source.backing, s.source.position),
      ((s.source.moved residence).backing, s.source.position), ⟨rfl, rfl⟩,
      List.take_prefix _ _, range_of_not_lt hroom,
      range_of_not_lt (s := s.moved residence) hroom⟩

end Scan

/-- Whether words are copied or stay where they are, and wherever that is, they
are the same. -/
theorem Words.passes_read (mode mode' : LoadMode) (n : Nat) :
    Scan.Passes (fun _ w w' => ∀ i, w'.val.word i = w.val.word i) (read mode n)
      (read mode' n) := by
  refine Scan.passes_bind (Scan.passes_range (8 * n)) ?_
  rintro _ ⟨backing, start⟩ ⟨backing', _⟩ ⟨hbytes, rfl⟩
  refine Scan.passes_pure fun i => ?_
  rw [word_ofBacking, word_ofBacking, Backing.wordAt_congr hbytes]

theorem Vbyte.plain_readFrom (bits : Nat) (p : Partial) :
    Scan.Plain (readFrom bits p) := by
  -- on what is left of the width, since every group that is taken comes seven
  -- bits higher
  induction h : bits - p.shift using Nat.strongRecOn generalizing p with
  | ind n ih =>
      subst h
      rw [readFrom]
      refine Scan.plain_bind Scan.plain_byte fun b => ?_
      split
      · exact Scan.plain_throw _
      · next q hpush =>
          split
          · exact Scan.plain_pure _
          · obtain ⟨hlt, hshift⟩ := Partial.shift_lt_of_push hpush
            exact ih _ (by rw [hshift]; omega) q rfl

theorem Vbyte.plain_read (bits : Nat) : Scan.Plain (read bits) :=
  plain_readFrom bits .empty

/-! ## Headers -/

namespace Section.Header

open Scan

theorem plain_readText : Plain readText := by
  refine plain_bind (Vbyte.plain_read 64) fun size => ?_
  split
  · exact plain_throw _
  · refine plain_bind (plain_readExact size) fun bytes => ?_
    split
    · exact plain_pure _
    · exact plain_throw _

theorem plain_readProperties (p : Properties) (count : Nat) :
    Plain (readProperties p count) := by
  induction count generalizing p with
  | zero => exact plain_pure p
  | succ count ih =>
      exact plain_bind plain_readText fun _ =>
        plain_bind plain_readText fun _ => ih _

theorem plain_readKind : Plain readKind := by
  refine plain_bind plain_byte fun tag => plain_bind plain_byte fun version =>
    plain_bind (plain_lift _) fun kind => ?_
  split
  · exact plain_pure _
  · exact plain_throw _

end Section.Header

end TripleStore
