import Mathlib.Data.List.Forall2
import TripleStore.Proofs.Bytes.Feeds
import TripleStore.Proofs.Checksum

/-!
# What a running checksum covers

However the bytes are cut up on the way, a running checksum is the check of just
those that went through it. A writer's covers what its sink took of each offer,
also of one that failed (`Emit.exists_fronts`). A reader's covers what its
source yielded, also to a call that failed, and what was folded in, but nothing
that was skipped (`Scan.State.afterAll_eq`). The trailer written behind is that
check, lowest byte first, and a trailer that is found matches just if it is
(`checksums_cover`).
-/

namespace TripleStore

/-- The state that an action leaves, whether it succeeds or fails. -/
def leftBy {ε σ α : Type} : EStateM.Result ε σ α → σ
  | .ok _ s => s
  | .error _ s => s

/-! ## Little-endian numbers -/

theorem LittleEndian.encode_decode (bytes : Bytes) :
    encode bytes.length (decode bytes) = bytes := by
  induction bytes with
  | nil => rfl
  | cons b bytes ih =>
      have hlow : (b.toNat + 256 * decode bytes).toUInt8 = b := by
        refine UInt8.toNat_inj.mp ?_
        have hb : b.toNat < 256 := b.toNat_lt
        show (b.toNat + 256 * decode bytes) % 256 = b.toNat
        rw [Nat.add_mul_mod_self_left, Nat.mod_eq_of_lt hb]
      have hhigh : (b.toNat + 256 * decode bytes) / 256 = decode bytes := by
        rw [Nat.add_mul_div_left _ _ (by decide), Nat.div_eq_of_lt b.toNat_lt,
          Nat.zero_add]
      rw [List.length_cons, encode, decode, hlow, hhigh, ih]

/-- Numbers that fit can be compared as numbers or as bytes. -/
theorem LittleEndian.decode_eq_iff {bytes : Bytes} {n : Nat}
    (h : n < capacity (8 * bytes.length)) :
    decode bytes = n ↔ bytes = encode bytes.length n := by
  constructor
  · rintro rfl
    exact (encode_decode bytes).symm
  · intro hbytes
    rw [hbytes, decode_encode, Nat.mod_eq_of_lt h]

/-! ## Writing -/

namespace Emit

/-- What a writer is asked for: one offer of the bytes, or offers until all are
taken. -/
inductive Call where
  | write (bytes : Bytes)
  | writeAll (bytes : Bytes)

namespace Call

def bytes : Call → Bytes
  | write bytes => bytes
  | writeAll bytes => bytes

def perform : Call → Emit Unit
  | write bytes => do
    let _ ← Emit.write bytes
  | writeAll bytes => Emit.writeAll bytes

end Call

def State.after (s : State) (call : Call) : State := leftBy (call.perform s)

def State.afterAll (s : State) (calls : List Call) : State :=
  calls.foldl State.after s

/-- A call leaves a front part of its bytes in the sink, and the running
checksum takes in that part and nothing else. -/
theorem exists_front (s : State) (call : Call) : ∃ front, front <+: call.bytes ∧
    (s.after call).sink.toBytes = s.sink.toBytes ++ front ∧
    (s.after call).running = s.running.absorb front ∧
    (s.after call).sink.takes = s.sink.takes := by
  cases call with
  | write bytes =>
      exact ⟨bytes.take (s.sink.offer bytes).1, List.take_prefix _ _,
        s.sink.toBytes_offer bytes, rfl, s.sink.takes_offer bytes⟩
  | writeAll bytes =>
      rcases writeAll_cases bytes s.sink s.running with
        ⟨sink', haccepts, hwrite⟩ | ⟨front, sink', hstops, hwrite⟩
      · have hafter :
            s.after (.writeAll bytes) = ⟨sink', s.running.absorb bytes⟩ :=
              congrArg leftBy hwrite
        rw [hafter]
        exact ⟨bytes, List.prefix_rfl, haccepts.toBytes, rfl, haccepts.takes⟩
      · have hafter :
            s.after (.writeAll bytes) = ⟨sink', s.running.absorb front⟩ :=
              congrArg leftBy hwrite
        rw [hafter]
        exact ⟨front, hstops.isPrefix, hstops.toBytes, rfl, hstops.takes⟩

/-- So do calls one after another, each of which leaves a front part of its own
bytes. -/
theorem exists_fronts (s : State) (calls : List Call) : ∃ fronts : List Bytes,
    List.Forall₂ (fun front call => front <+: call.bytes) fronts calls ∧
    (s.afterAll calls).sink.toBytes = s.sink.toBytes ++ fronts.flatten ∧
    (s.afterAll calls).running = s.running.absorb fronts.flatten ∧
    (s.afterAll calls).sink.takes = s.sink.takes := by
  induction calls generalizing s with
  | nil => exact ⟨[], .nil, (List.append_nil _).symm, rfl, rfl⟩
  | cons call calls ih =>
      obtain ⟨front, hfront, hbytes, hrunning, htakes⟩ := exists_front s call
      obtain ⟨fronts, hfronts, hrest, hlater, hkept⟩ := ih (s.after call)
      refine ⟨front :: fronts, .cons hfront hfronts, ?_, ?_, hkept.trans htakes⟩
      · rw [List.flatten_cons, ← List.append_assoc, ← hbytes]
        exact hrest
      · rw [List.flatten_cons, Running.absorb_append, ← hrunning]
        exact hlater

/-- The sink holds `text` besides what it held before, the running checksum is
the check of `text`, and this is what finishing puts behind it, lowest byte
first. Finishing fails just where the sink takes nothing of what it is
offered. -/
structure Covers (kind : Checksum) (sink : Sink) (text : Bytes) (s : State) :
    Prop where
  accepted : s.sink.toBytes = sink.toBytes ++ text
  checksum : s.running.value = kind.compute text
  finish : ∀ s', trailer s = .ok () s' → s'.sink.toBytes =
    sink.toBytes ++ (text ++ LittleEndian.encode kind.width (kind.compute text))
  refused : ∀ e s', trailer s = .error e s' → e = .io .full ∧ ∃ taken,
    s.sink.Stops (LittleEndian.encode kind.width (kind.compute text))
      taken s'.sink
  willing : sink.Willing → ∃ s', trailer s = .ok () s'

theorem covers_of_absorb {kind : Checksum} {sink : Sink}
    {text : Bytes} {s : State} (hbytes : s.sink.toBytes = sink.toBytes ++ text)
    (hrunning : s.running = (Running.start kind).absorb text)
    (htakes : s.sink.takes = sink.takes) : Covers kind sink text s := by
  have htrailer :
      s.running.trailer =
        LittleEndian.encode kind.width (kind.compute text) := by
    rw [hrunning]
    rfl
  have hcases := writeAll_cases s.running.trailer s.sink s.running
  rw [htrailer] at hcases
  have hfinish :
      trailer s = writeAll (LittleEndian.encode kind.width (kind.compute text))
        s := by
    rw [← htrailer]
    rfl
  refine ⟨hbytes, by rw [hrunning]; rfl, fun s' hok => ?_,
    fun e s' herror => ?_, fun hwilling => ?_⟩
  · rw [hfinish] at hok
    rcases hcases with ⟨sink', haccepts, hwrite⟩ | ⟨taken, sink', -, hwrite⟩
    · cases hok.symm.trans hwrite
      rw [haccepts.toBytes, hbytes, List.append_assoc]
    · cases hok.symm.trans hwrite
  · rw [hfinish] at herror
    rcases hcases with ⟨sink', -, hwrite⟩ | ⟨taken, sink', hstops, hwrite⟩
    · cases herror.symm.trans hwrite
    · cases herror.symm.trans hwrite
      exact ⟨rfl, taken, hstops⟩
  · rw [hfinish]
    rcases hcases with ⟨sink', -, hwrite⟩ | ⟨taken, sink', hstops, -⟩
    · exact ⟨_, hwrite⟩
    · refine absurd hstops (Sink.Willing.not_stops ?_)
      intro calls written offered
      rw [htakes]
      exact hwilling calls written offered

end Emit

/-! ## Reading -/

namespace Scan

variable {α β : Type} {P : Bytes → α → Prop} {act : Scan α}

/-- How bytes are asked for: by one call, so many in as many calls as it takes,
or all. -/
inductive Reading where
  | once (n : Nat)
  | exactly (n : Nat)
  | all

namespace Reading

def perform : Reading → Scan Bytes
  | once n => Scan.read n
  | exactly n => readExact n
  | all => readAll

theorem feeds_perform (reading : Reading) :
    Feeds (fun bytes got => got = bytes) reading.perform := by
  cases reading with
  | once n => exact (feeds_read n).imp fun _ _ h => h.1
  | exactly n => exact (feeds_readMore #[] n).imp fun _ _ h => h.1
  | all =>
      refine feeds_bind feeds_left ?_
      rintro _ n rfl
      exact feeds_readOn n.succ #[]

end Reading

/-- What a reader is asked for. -/
inductive Call where
  | take (reading : Reading)
  | range (n : Nat)
  | fold (bytes : Bytes)
  | skip (reading : Reading)
  | verify

namespace Call

def perform : Call → Scan Unit
  | take reading => do
    let _ ← reading.perform
  | range n => do
    let _ ← Scan.range n
  | fold bytes => Scan.fold bytes
  | skip reading => do
    let _ ← aside reading.perform
  | verify => do
    let _ ← Scan.verify

/-- What a call lets into the running checksum, by what it passes over. -/
def share : Call → Bytes → Bytes
  | take _, passed => passed
  | range _, passed => passed
  | fold bytes, _ => bytes
  | skip _, _ => []
  | verify, _ => []

end Call

namespace State

def after (s : State) (call : Call) : State := leftBy (call.perform s)

def afterAll (s : State) (calls : List Call) : State := calls.foldl after s

/-- The bytes that the source yields to a call. -/
def passed (s : State) (call : Call) : Bytes :=
  s.source.rest.take ((s.after call).source.position - s.source.position)

/-- What calls let into the running checksum, one behind another. -/
def covered (s : State) : List Call → Bytes
  | [] => []
  | call :: calls => call.share (s.passed call) ++ (s.after call).covered calls

end State

/-- What an action leaves does not hang on what is made of its value. -/
theorem leftBy_map (act : Scan α) (g : α → β) (s : State) :
    leftBy ((do return g (← act) : Scan β) s) = leftBy (act s) := by
  show leftBy (EStateM.bind act (fun a => pure (g a)) s) = _
  rw [EStateM.bind]
  cases act s <;> rfl

theorem Feeds.exists_past (h : Feeds P act) (s : State) :
    ∃ bytes, bytes <+: s.source.rest ∧ leftBy (act s) = s.past bytes := by
  obtain ⟨bytes, hnext, ⟨a, -, hact⟩ | ⟨e, hact⟩⟩ := h s
  · exact ⟨bytes, hnext, congrArg leftBy hact⟩
  · exact ⟨bytes, hnext, congrArg leftBy hact⟩

theorem Feeds.exists_beside (h : Feeds P act) (s : State) :
    ∃ bytes, bytes <+: s.source.rest ∧
      leftBy (aside act s) = s.beside bytes := by
  obtain ⟨bytes, hnext, ⟨a, -, hact⟩ | ⟨e, hact⟩⟩ := aside_cases h s
  · exact ⟨bytes, hnext, congrArg leftBy hact⟩
  · exact ⟨bytes, hnext, congrArg leftBy hact⟩

/-- Whether a call succeeds or fails, it passes over what comes next, and the
running checksum takes in the call's share of it. -/
theorem exists_passed (s : State) (call : Call) :
    ∃ bytes, bytes <+: s.source.rest ∧
    s.after call = ⟨s.source.advance bytes.length,
      s.running.absorb (call.share bytes), s.warnings⟩ := by
  cases call with
  | take reading =>
      obtain ⟨bytes, hnext, hleft⟩ := reading.feeds_perform.exists_past s
      exact ⟨bytes, hnext, (leftBy_map _ _ s).trans hleft⟩
  | range n =>
      obtain ⟨bytes, hnext, hleft⟩ := (feeds_range n).exists_past s
      exact ⟨bytes, hnext, (leftBy_map _ _ s).trans hleft⟩
  | fold bytes => exact ⟨[], List.nil_prefix, rfl⟩
  | skip reading =>
      obtain ⟨bytes, hnext, hleft⟩ := reading.feeds_perform.exists_beside s
      exact ⟨bytes, hnext, (leftBy_map _ _ s).trans hleft⟩
  | verify =>
      -- the trailer is skipped and then looked at
      have hleft : s.after .verify = leftBy (skip s.running.kind.width s) :=
        (leftBy_map _ _ s).trans (leftBy_map _ (· == s.running.trailer) s)
      obtain ⟨bytes, hnext, hskip⟩ :=
        (feeds_readMore #[] s.running.kind.width).exists_beside s
      exact ⟨bytes, hnext, hleft.trans hskip⟩

theorem State.passed_eq {s : State} {call : Call} {bytes : Bytes}
    (hnext : bytes <+: s.source.rest)
    (hsource : (s.after call).source = s.source.advance bytes.length) :
    s.passed call = bytes := by
  rw [passed, hsource]
  show s.source.rest.take
    (s.source.position + bytes.length - s.source.position) = bytes
  rw [Nat.add_sub_cancel_left]
  exact (List.prefix_iff_eq_take.mp hnext).symm

theorem State.passed_prefix (s : State) (call : Call) :
    s.passed call <+: s.source.rest :=
  List.take_prefix _ _

theorem State.after_eq (s : State) (call : Call) : s.after call =
    ⟨s.source.advance (s.passed call).length,
      s.running.absorb (call.share (s.passed call)), s.warnings⟩ := by
  obtain ⟨bytes, hnext, hafter⟩ := exists_passed s call
  rw [State.passed_eq hnext (congrArg State.source hafter)]
  exact hafter

/-- Calls one after another pass over what comes next, and the running checksum
takes in what they cover. -/
theorem State.afterAll_eq (s : State) (calls : List Call) :
    ∃ bytes, bytes <+: s.source.rest ∧
    s.afterAll calls =
      ⟨s.source.advance bytes.length, s.running.absorb (s.covered calls),
        s.warnings⟩ := by
  induction calls generalizing s with
  | nil => exact ⟨[], List.nil_prefix, rfl⟩
  | cons call calls ih =>
      obtain ⟨bytes, hnext, hafter⟩ := ih (s.after call)
      rw [after_eq] at hnext
      refine ⟨s.passed call ++ bytes,
        Source.append_prefix_rest (s.passed_prefix call) hnext, ?_⟩
      rw [covered, Running.absorb_append, List.length_append,
        ← Source.advance_advance]
      show (s.after call).afterAll calls = _
      rw [hafter, after_eq]

/-- The source stands behind what the calls passed over, and the running
checksum is the check of `text`. A trailer that is found here is as wide as the
check; it matches just if it is that check, lowest byte first, be it compared as
bytes or as a number, and it does not enter the running checksum. It is found
where as much is left, unless the source breaks off. -/
structure Covers (kind : Checksum) (source : Source) (text : Bytes)
    (s : State) : Prop where
  passed : ∃ bytes, bytes <+: source.rest ∧
    s.source = source.advance bytes.length
  checksum : s.running.value = kind.compute text
  compared : ∀ matched s', verify s = .ok matched s' →
    ∃ found, found <+: s.source.rest ∧
    found.length = kind.width ∧
    (matched = true ↔ found =
      LittleEndian.encode kind.width (kind.compute text)) ∧
    (matched = true ↔ LittleEndian.decode found = kind.compute text) ∧
    s' = s.beside found
  found : source.Steady → kind.width ≤ s.source.rest.length →
    ∃ matched s', verify s = .ok matched s'
  missed : s.source.rest.length < kind.width → ∃ e s', verify s = .error e s'

theorem covers_afterAll (kind : Checksum) (source : Source)
    (warnings : List Warning) (calls : List Call) :
    Covers kind source (State.covered ⟨source, .start kind, warnings⟩ calls)
      (State.afterAll ⟨source, .start kind, warnings⟩ calls) := by
  obtain ⟨bytes, hnext, hafter⟩ :=
    State.afterAll_eq ⟨source, .start kind, warnings⟩ calls
  generalize State.covered ⟨source, .start kind, warnings⟩ calls =
    text at hafter ⊢
  rw [hafter]
  obtain ⟨found, hfound, hcases⟩ := verify_aside
    ⟨source.advance bytes.length, (Running.start kind).absorb text, warnings⟩
  refine ⟨⟨bytes, hnext, rfl⟩, Running.value_start_absorb kind text,
    fun matched s' hok => ?_,
    fun hsteady hroom => ?_, fun hshort => ?_⟩
  · rcases hcases with ⟨hlength, hverify⟩ | ⟨e, hverify⟩
    · cases hverify.symm.trans hok
      replace hlength : found.length = kind.width := hlength
      have hnumber : LittleEndian.decode found = kind.compute text ↔
          found = LittleEndian.encode kind.width (kind.compute text) := by
        rw [← hlength]
        exact LittleEndian.decode_eq_iff
          (hlength ▸ kind.compute_lt_capacity text)
      exact ⟨found, hfound, hlength, beq_iff_eq,
        beq_iff_eq.trans hnumber.symm, rfl⟩
    · cases hverify.symm.trans hok
  · have hwidth :
        ((source.advance bytes.length).rest.take kind.width).length =
          kind.width :=
      List.length_take_of_le hroom
    have hskip :=
      (reads_skip _ ((Running.start kind).absorb text)).takes _ warnings
      (hsteady.advance hnext.length_le) (List.take_prefix kind.width _)
    rw [hwidth] at hskip
    obtain ⟨found, -, hskip⟩ := hskip
    exact ⟨_, _, bind_eq_ok.mpr
      ⟨_, _, rfl, bind_eq_ok.mpr ⟨found, _, hskip, rfl⟩⟩⟩
  · rcases hcases with ⟨hlength, -⟩ | ⟨e, hverify⟩
    · exact absurd (hlength ▸ hfound.length_le) (Nat.not_le.mpr hshort)
    · exact ⟨e, _, hverify⟩

end Scan

/-- A running checksum is the check of what went through and of nothing else: in
a writer of what the sink took of each call's bytes, in a reader of what
readings and ranges passed over, which is what they give out, and of what was
folded in. -/
theorem checksums_cover (kind : Checksum) :
    (∀ (sink : Sink) (calls : List Emit.Call), ∃ fronts : List Bytes,
      List.Forall₂ (fun front call => front <+: call.bytes) fronts calls ∧
      Emit.Covers kind sink fronts.flatten
        (Emit.State.afterAll ⟨sink, .start kind⟩ calls)) ∧
    (∀ (source : Source) (warnings : List Warning) (calls : List Scan.Call),
      Scan.Covers kind source
        (Scan.State.covered ⟨source, .start kind, warnings⟩ calls)
        (Scan.State.afterAll ⟨source, .start kind, warnings⟩ calls)) ∧
    (∀ reading : Scan.Reading,
      Scan.Feeds (fun bytes got => got = bytes) reading.perform) ∧
    ∀ n, Scan.Feeds (fun bytes found => found.1.slice found.2 n = bytes)
      (Scan.range n) := by
  refine ⟨fun sink calls => ?_, Scan.covers_afterAll kind,
    Scan.Reading.feeds_perform, Scan.feeds_range⟩
  obtain ⟨fronts, hfronts, hbytes, hrunning, htakes⟩ :=
    Emit.exists_fronts ⟨sink, .start kind⟩ calls
  exact ⟨fronts, hfronts, Emit.covers_of_absorb hbytes hrunning htakes⟩

/-- What is folded in comes before what is read then, and what is skipped does
not come at all. -/
example :
    (Scan.State.afterAll
      ⟨.chunked [1, 2, 3, 4, 5] 2 .failure, .start .crc16, []⟩
      [.fold [7, 8], .take (.once 1), .skip (.once 2),
        .take (.once 9)]).running.value =
      Checksum.crc16.compute [7, 8, 1, 4, 5] := by decide +kernel

end TripleStore
