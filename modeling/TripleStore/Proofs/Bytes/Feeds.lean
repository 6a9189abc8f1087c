import TripleStore.Proofs.Bytes.Passes

/-!
# What reading feeds to the checksum

A reading takes what comes next, and the running checksum takes in just that,
whether the reading succeeds or breaks off (`Feeds`). What is read aside is
passed over too, but does not enter the checksum (`aside_cases`,
`verify_aside`).
-/

namespace TripleStore

namespace Scan

variable {α β : Type}

/-- The scan lets into the running checksum just what the source yields to it,
and it does so also where it fails. A value that it gives is related to these
bytes. -/
def Feeds (P : Bytes → α → Prop) (act : Scan α) : Prop :=
  ∀ s, ∃ bytes, bytes <+: s.source.rest ∧
    ((∃ a, P bytes a ∧ act s = .ok a (s.past bytes)) ∨
      ∃ e, act s = .error e (s.past bytes))

variable {P P' : Bytes → α → Prop} {Q : Bytes → β → Prop} {act : Scan α}
  {f : α → Scan β}

theorem Feeds.imp (h : Feeds P act) (himp : ∀ bytes a, P bytes a → P' bytes a) :
    Feeds P' act := by
  intro s
  obtain ⟨bytes, hnext, ⟨a, ha, hact⟩ | herror⟩ := h s
  · exact ⟨bytes, hnext, .inl ⟨a, himp bytes a ha, hact⟩⟩
  · exact ⟨bytes, hnext, .inr herror⟩

/-- A scan that comes to its end has fed what it passed over. -/
theorem Feeds.ok (h : Feeds P act) {s s' : State} {a : α}
    (ha : act s = .ok a s') :
    ∃ bytes, P bytes a ∧ bytes <+: s.source.rest ∧ s' = s.past bytes := by
  obtain ⟨bytes, hnext, ⟨b, hb, hact⟩ | ⟨e, hact⟩⟩ := h s
  · cases ha.symm.trans hact
    exact ⟨bytes, hb, hnext, rfl⟩
  · cases ha.symm.trans hact

theorem feeds_pure {a : α} (h : P [] a) : Feeds P (pure a) :=
  fun _ => ⟨[], List.nil_prefix, .inl ⟨a, h, rfl⟩⟩

theorem feeds_throw (e : Error) : Feeds P (throw e) :=
  fun _ => ⟨[], List.nil_prefix, .inr ⟨e, rfl⟩⟩

theorem feeds_left : Feeds (fun bytes _ => bytes = []) left :=
  fun _ => ⟨[], List.nil_prefix, .inl ⟨_, rfl, rfl⟩⟩

theorem feeds_bind (hact : Feeds P act)
    (hf : ∀ bytes a, P bytes a → Feeds (fun more => Q (bytes ++ more)) (f a)) :
    Feeds Q (act >>= f) := by
  intro s
  obtain ⟨p, hp, ⟨a, ha, hact⟩ | ⟨e, hact⟩⟩ := hact s
  · obtain ⟨q, hq, hcases⟩ := hf p a ha (s.past p)
    rw [State.past_past] at hcases
    refine ⟨p ++ q, Source.append_prefix_rest hp hq, ?_⟩
    rw [bind_of_ok hact]
    exact hcases
  · exact ⟨p, hp, .inr ⟨e, bind_eq_error.mpr (.inl hact)⟩⟩

theorem feeds_read (n : Nat) :
    Feeds (fun bytes got => got = bytes ∧ bytes.length ≤ n) (read n) := by
  intro s
  by_cases h : n ≠ 0 ∧ s.source.atEnd ∧ s.source.ending = .failure
  · have hread : s.source.read n = .error (.io .failed) := if_pos h
    refine ⟨[], List.nil_prefix, .inr ⟨.io .failed, ?_⟩⟩
    rw [read, hread]
    rfl
  · have hlength := s.source.length_take_grant n
    refine ⟨s.source.rest.take (s.source.grant n), List.take_prefix _ _,
      .inl
        ⟨_, ⟨rfl, Nat.le_trans (Nat.le_of_eq hlength) (s.source.grant_le n).1⟩,
          ?_⟩⟩
    rw [read, s.source.read_eq n h, State.past, hlength]

theorem feeds_readMore (got : Array UInt8) (n : Nat) :
    Feeds (fun bytes all => all = got.toList ++ bytes ∧
      bytes.length = n) (readMore got n) := by
  -- every call that yields something leaves fewer bytes to ask for
  induction n using Nat.strongRecOn generalizing got with
  | ind n ih =>
      rw [readMore]
      split
      · next hzero => exact feeds_pure ⟨(List.append_nil _).symm, hzero.symm⟩
      · refine feeds_bind (feeds_read n) ?_
        rintro _ next ⟨rfl, hle⟩
        split
        · exact feeds_throw _
        · next hne =>
            have hpos := List.length_pos_iff.mpr hne
            refine (ih (n - next.length) (by omega) (got ++ next)).imp ?_
            rintro more _ ⟨rfl, hlength⟩
            refine ⟨by rw [Array.toList_appendList, List.append_assoc], ?_⟩
            rw [List.length_append, hlength, Nat.add_sub_cancel' hle]

theorem feeds_byte : Feeds (fun bytes b => bytes = [b]) byte := by
  refine feeds_bind (feeds_readMore #[] 1) ?_
  rintro bytes _ ⟨rfl, hlength⟩
  obtain ⟨b, rfl⟩ := List.length_eq_one_iff.mp hlength
  exact feeds_pure rfl

theorem feeds_readOn (fuel : Nat) (got : Array UInt8) :
    Feeds (fun bytes all => all = got.toList ++ bytes) (readOn fuel got) := by
  induction fuel generalizing got with
  | zero => exact feeds_pure (List.append_nil _).symm
  | succ fuel ih =>
      refine feeds_bind feeds_left ?_
      rintro _ n rfl
      refine feeds_bind (feeds_read n.succ) ?_
      rintro _ next ⟨rfl, -⟩
      split
      · next hnil =>
          subst hnil
          exact feeds_pure (List.append_nil _).symm
      · refine (ih (got ++ next)).imp ?_
        rintro more _ rfl
        rw [Array.toList_appendList, List.append_assoc]
        rfl

theorem feeds_range (n : Nat) :
    Feeds (fun bytes found => found.1.slice found.2 n = bytes) (range n) := by
  intro s
  by_cases hroom : s.source.backing.size < s.source.position + n
  · exact ⟨[], List.nil_prefix, .inr ⟨.endOfStream, range_of_lt hroom⟩⟩
  · exact ⟨s.source.rest.take n, List.take_prefix _ _,
      .inl ⟨(s.source.backing, s.source.position),
        s.source.backing.slice_eq _ _, range_of_not_lt hroom⟩⟩

/-- What is read aside is passed over and kept out of the running checksum. -/
theorem aside_cases (h : Feeds P act) (s : State) :
    ∃ bytes, bytes <+: s.source.rest ∧
    ((∃ a, P bytes a ∧ aside act s = .ok a (s.beside bytes)) ∨
      ∃ e, aside act s = .error e (s.beside bytes)) := by
  obtain ⟨bytes, hnext, ⟨a, ha, hact⟩ | ⟨e, hact⟩⟩ := h s
  · refine ⟨bytes, hnext, .inl ⟨a, ha, ?_⟩⟩
    rw [aside, hact]
    rfl
  · refine ⟨bytes, hnext, .inr ⟨e, ?_⟩⟩
    rw [aside, hact]
    rfl

/-- A trailer is compared with the running checksum, which stays as it is, or
cannot be read. -/
theorem verify_aside (s : State) : ∃ bytes, bytes <+: s.source.rest ∧
    (bytes.length = s.running.kind.width ∧
      verify s = .ok (bytes == s.running.trailer) (s.beside bytes) ∨
      ∃ e, verify s = .error e (s.beside bytes)) := by
  obtain ⟨bytes, hnext, ⟨_, ⟨rfl, hlength⟩, hskip⟩ | ⟨e, hskip⟩⟩ :=
    aside_cases (feeds_readMore #[] s.running.kind.width) s
  · refine ⟨_, hnext, .inl ⟨hlength, ?_⟩⟩
    exact bind_eq_ok.mpr ⟨s, s, rfl, bind_eq_ok.mpr ⟨_, _, hskip, rfl⟩⟩
  · refine ⟨bytes, hnext, .inr ⟨e, ?_⟩⟩
    exact bind_eq_error.mpr (.inr ⟨s, s, rfl, bind_eq_error.mpr (.inl hskip)⟩)

end Scan

end TripleStore
