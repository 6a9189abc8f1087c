import TripleStore.Proofs.Bytes.Emits
import TripleStore.Proofs.Bytes.Yields

/-!
# What a scan reads

Where certain bytes come next, a scan takes just them and gives a value,
whatever comes behind them and in however many pieces the source yields them;
and where the source ends inside them, the scan says so (`Reads`). A scan of a
whole source besides refuses what comes behind (`ParsesAll`).
-/

namespace TripleStore

namespace Source

/-- The source stands inside its backing, and each call before the end yields
something. -/
structure Steady (s : Source) : Prop where
  position_le : s.position ≤ s.backing.size
  burst_pos : ∀ p < s.backing.size, 0 < s.burst p

variable {s : Source}

theorem length_rest (s : Source) :
    s.rest.length = s.backing.size - s.position := by
  simp [rest, Backing.toBytes, Backing.size]

theorem Steady.advance (h : s.Steady) {n : Nat} (hn : n ≤ s.rest.length) :
    (s.advance n).Steady := by
  have hle := h.position_le
  rw [length_rest] at hn
  exact ⟨by show s.position + n ≤ s.backing.size; omega, h.burst_pos⟩

theorem advance_advance (s : Source) (m n : Nat) :
    (s.advance m).advance n = s.advance (m + n) := by
  simp [Source.advance, Nat.add_assoc]

/-- What comes second is next once the first is read. -/
theorem prefix_rest_advance {a b : Bytes} (h : a ++ b <+: s.rest) :
    b <+: (s.advance a.length).rest := by
  obtain ⟨after, hafter⟩ := h
  rw [rest_advance, ← hafter, List.append_assoc, List.drop_left]
  exact List.prefix_append b after

theorem steady_chunked (bytes : Bytes) {chunk : Nat} (h : 0 < chunk)
    (ending : Ending) :
    (chunked bytes chunk ending).Steady :=
  ⟨Nat.zero_le _, fun _ _ => h⟩

theorem steady_ofBacking (backing : Backing) : (ofBacking backing).Steady :=
  ⟨Nat.zero_le _, fun _ hp => Nat.lt_of_le_of_lt (Nat.zero_le _) hp⟩

/-- Before the end, a call yields some of what is asked for. -/
theorem Steady.read (h : s.Steady) {n : Nat} (hpos : 0 < n)
    (hrest : 0 < s.rest.length) :
    ∃ g, 0 < g ∧ g ≤ n ∧ g ≤ s.rest.length ∧
      s.read n = .ok (s.rest.take g, s.advance g) := by
  rw [length_rest] at hrest ⊢
  have hburst := h.burst_pos s.position (by omega)
  refine ⟨s.grant n, ?_, ?_, ?_, read_eq s n ?_⟩
  · rw [grant]
    omega
  · rw [grant]
    omega
  · rw [grant]
    omega
  · rintro ⟨-, hend, -⟩
    rw [atEnd, decide_eq_true_eq] at hend
    omega

/-- At the end of a file a call yields nothing. -/
theorem read_end (hending : s.ending = .endOfFile)
    (hrest : s.rest.length = 0) (n : Nat) :
    s.read n = .ok ([], s.advance 0) := by
  have hgrant : s.grant n = 0 := by
    rw [length_rest] at hrest
    rw [grant]
    omega
  rw [read_eq s n (by simp [hending]), hgrant, List.take_zero]

/-- The source ends inside `bytes`. -/
structure Cuts (s : Source) (bytes : Bytes) : Prop where
  steady : s.Steady
  ending : s.ending = .endOfFile
  isPrefix : s.rest <+: bytes
  ne : s.rest ≠ bytes

theorem Cuts.length_lt {bytes : Bytes} (h : s.Cuts bytes) :
    s.rest.length < bytes.length := by
  refine Nat.lt_of_le_of_ne h.isPrefix.length_le fun hlength => ?_
  exact h.ne (h.isPrefix.eq_of_length hlength)

theorem not_cuts_nil (s : Source) : ¬ s.Cuts [] :=
  fun h => Nat.not_lt_zero _ h.length_lt

/-- A source that ends inside two pieces ends inside the first, or behind it
inside the second. -/
theorem Cuts.append {a b : Bytes} (h : s.Cuts (a ++ b)) :
    s.Cuts a ∨ a <+: s.rest ∧ (s.advance a.length).Cuts b := by
  by_cases hfirst : a <+: s.rest
  · refine .inr ⟨hfirst, h.steady.advance hfirst.length_le, h.ending, ?_,
      fun heq => h.ne ?_⟩
    all_goals obtain ⟨c, hc⟩ := hfirst
    · have hprefix := h.isPrefix
      rw [← hc, List.prefix_append_right_inj] at hprefix
      rwa [rest_advance, ← hc, List.drop_left]
    · rw [rest_advance, ← hc, List.drop_left] at heq
      rw [← hc, heq]
  · refine .inl ⟨h.steady, h.ending, ?_, fun heq =>
      hfirst (heq ▸ List.prefix_rfl)⟩
    exact (List.prefix_or_prefix_of_prefix h.isPrefix
      (List.prefix_append a b)).resolve_right hfirst

end Source

namespace Scan

variable {α β : Type}

/-- Where `bytes` comes next the scan takes them, gives a value with the
property `P` and no warning, and takes the running checksum from `r` to `r'`.
Where the source ends inside `bytes`, that is what the scan fails for. -/
structure Reads (act : Scan α) (r : Running) (bytes : Bytes) (P : α → Prop)
    (r' : Running) : Prop where
  takes : ∀ source warnings, source.Steady → bytes <+: source.rest →
    ∃ a, P a ∧ act ⟨source, r, warnings⟩ =
      .ok a ⟨source.advance bytes.length, r', warnings⟩
  starves : ∀ source warnings, source.Cuts bytes →
    ∃ s', act ⟨source, r, warnings⟩ = .error .endOfStream s'

variable {act : Scan α} {f : α → Scan β} {r r₁ r₂ : Running}
  {bytes rest : Bytes} {P : α → Prop} {Q : β → Prop}

/-- A scan starves in its first step, or goes through it and starves behind it. -/
theorem starves_bind {source : Source} {warnings : List Warning}
    (hcuts : source.Cuts (bytes ++ rest))
    (hfirst : source.Cuts bytes →
      ∃ s', act ⟨source, r, warnings⟩ = .error .endOfStream s')
    (hsecond : bytes <+: source.rest → (source.advance bytes.length).Cuts rest →
      ∃ a s₁ s', act ⟨source, r, warnings⟩ = .ok a s₁ ∧
        f a s₁ = .error .endOfStream s') :
    ∃ s', (act >>= f) ⟨source, r, warnings⟩ = .error .endOfStream s' := by
  rcases hcuts.append with hcut | ⟨hbytes, hcut⟩
  · obtain ⟨s', hact⟩ := hfirst hcut
    exact ⟨s', bind_eq_error.mpr (.inl hact)⟩
  · obtain ⟨a, s₁, s', hact, hf⟩ := hsecond hbytes hcut
    exact ⟨s', bind_eq_error.mpr (.inr ⟨a, s₁, hact, hf⟩)⟩

theorem reads_bind (hact : Reads act r bytes P r₁)
    (hf : ∀ a, P a → Reads (f a) r₁ rest Q r₂) :
    Reads (act >>= f) r (bytes ++ rest) Q r₂ where
  takes := by
    intro source warnings hsteady hnext
    have hbytes : bytes <+: source.rest :=
      (List.prefix_append bytes rest).trans hnext
    obtain ⟨a, ha, hact⟩ := hact.takes source warnings hsteady hbytes
    obtain ⟨b, hb, hf⟩ :=
      (hf a ha).takes _ warnings (hsteady.advance hbytes.length_le)
      (Source.prefix_rest_advance hnext)
    refine ⟨b, hb, bind_eq_ok.mpr ⟨a, _, hact, ?_⟩⟩
    rw [hf, Source.advance_advance, List.length_append]
  starves := by
    intro source warnings hcuts
    refine starves_bind hcuts (hact.starves source warnings)
      fun hbytes hsecond => ?_
    obtain ⟨a, ha, hact⟩ := hact.takes source warnings hcuts.steady hbytes
    obtain ⟨s', hf⟩ := (hf a ha).starves _ warnings hsecond
    exact ⟨a, _, s', hact, hf⟩

theorem Reads.imp {P' : α → Prop} (h : Reads act r bytes P r₁)
    (hP : ∀ a, P a → P' a) :
    Reads act r bytes P' r₁ where
  takes := by
    intro source warnings hsteady hnext
    obtain ⟨a, ha, hact⟩ := h.takes source warnings hsteady hnext
    exact ⟨a, hP a ha, hact⟩
  starves := h.starves

/-- What takes nothing cannot starve. -/
theorem reads_nothing (h : ∀ source warnings, ∃ a, P a ∧
    act ⟨source, r, warnings⟩ = .ok a ⟨source.advance 0, r₁, warnings⟩) :
    Reads act r [] P r₁ where
  takes := fun source warnings _ _ => h source warnings
  starves := fun source _ hcuts => (source.not_cuts_nil hcuts).elim

theorem reads_pure {a : α} (h : P a) (r : Running) : Reads (pure a) r [] P r :=
  reads_nothing fun _ _ => ⟨a, h, rfl⟩

/-- The first step may read nothing. -/
theorem reads_silent (hact : Reads act r [] P r₁)
    (hf : ∀ a, P a → Reads (f a) r₁ rest Q r₂) :
    Reads (act >>= f) r rest Q r₂ := reads_bind hact hf

/-- The last step may read nothing more. -/
theorem reads_last (hact : Reads act r bytes P r₁)
    (hf : ∀ a, P a → Reads (f a) r₁ [] Q r₂) :
    Reads (act >>= f) r bytes Q r₂ := by
  have h := reads_bind hact hf
  rwa [List.append_nil] at h

theorem reads_restart (kind : Checksum) (r : Running) :
    Reads (restart kind) r [] (fun _ => True) (.start kind) :=
  reads_nothing fun _ _ => ⟨(), trivial, rfl⟩

/-- What is already known is not read. -/
theorem reads_known {e : Except Error α} {a : α} (h : e = .ok a)
    (hf : Reads (f a) r rest Q r₂) :
    Reads (liftM e >>= f) r rest Q r₂ := by
  subst h
  exact hf

theorem readMore_eq {source : Source} (hsteady : source.Steady)
    (got : Array UInt8) {n : Nat} (hn : n ≤ source.rest.length) (r : Running)
    (warnings : List Warning) :
    readMore got n ⟨source, r, warnings⟩ =
      .ok (got.toList ++ source.rest.take n)
      ⟨source.advance n, r.absorb (source.rest.take n), warnings⟩ := by
  -- a read may give fewer bytes than asked for, but gives some, so that fewer
  -- are left to read
  induction n using Nat.strongRecOn generalizing source got r with
  | ind n ih =>
      by_cases hzero : n = 0
      · subst hzero
        rw [readMore, dif_pos rfl]
        simp
        rfl
      · obtain ⟨g, hpos, hle, -, hread⟩ :=
          hsteady.read (Nat.pos_of_ne_zero hzero) (by omega)
        have hlength : (source.rest.take g).length = g := by
          rw [List.length_take]
          omega
        have hne : source.rest.take g ≠ [] :=
          List.ne_nil_of_length_pos (by omega)
        have hcall : read n ⟨source, r, warnings⟩ = .ok (source.rest.take g)
            ⟨source.advance g, r.absorb (source.rest.take g), warnings⟩ := by
          rw [read, hread]
        have hlater := ih (n - g) (by omega)
          (hsteady.advance (n := g) (by omega)) (got ++ source.rest.take g)
          (by rw [Source.rest_advance, List.length_drop]; omega)
          (r.absorb (source.rest.take g))
        have hsplit : source.rest.take g ++ (source.rest.drop g).take (n - g) =
          source.rest.take n := by
          rw [← List.take_add, Nat.add_sub_cancel' hle]
        rw [Source.advance_advance, Nat.add_sub_cancel' hle,
          Source.rest_advance, ← Running.absorb_append, hsplit,
          Array.toList_appendList, List.append_assoc, hsplit] at hlater
        rw [readMore, dif_neg hzero, bind_eq_ok]
        refine ⟨_, _, hcall, ?_⟩
        rw [dif_neg hne, hlength]
        exact hlater

/-- Where fewer bytes are left than asked for, a call that yields none comes
sooner or later. -/
theorem readMore_starves {source : Source} (hsteady : source.Steady)
    (hending : source.ending = .endOfFile) (got : Array UInt8) {n : Nat}
    (hn : source.rest.length < n) (r : Running) (warnings : List Warning) :
    ∃ s', readMore got n ⟨source, r, warnings⟩ = .error .endOfStream s' := by
  induction n using Nat.strongRecOn generalizing source got r with
  | ind n ih =>
      rw [readMore, dif_neg (by omega)]
      rcases Nat.eq_zero_or_pos source.rest.length with hend | hleft
      · refine ⟨⟨source.advance 0, r.absorb [], warnings⟩,
          bind_eq_error.mpr (.inr ⟨[], _, ?_, rfl⟩)⟩
        rw [read, Source.read_end hending hend]
      · obtain ⟨g, hpos, hle, hgrant, hread⟩ :=
          hsteady.read (n := n) (by omega) hleft
        have hlength : (source.rest.take g).length = g := by
          rw [List.length_take]
          omega
        have hne : source.rest.take g ≠ [] :=
          List.ne_nil_of_length_pos (by omega)
        obtain ⟨s', hlater⟩ :=
          ih (n - g) (by omega) (hsteady.advance hgrant) hending
          (got ++ source.rest.take g)
          (by rw [Source.rest_advance, List.length_drop]; omega)
          (r.absorb (source.rest.take g))
        refine ⟨s', bind_eq_error.mpr
          (.inr ⟨source.rest.take g, _, by rw [read, hread], ?_⟩)⟩
        rw [dif_neg hne, hlength]
        exact hlater

theorem reads_readExact (bytes : Bytes) (r : Running) :
    Reads (readExact bytes.length) r bytes (· = bytes) (r.absorb bytes) where
  takes := by
    intro source warnings hsteady hnext
    refine ⟨bytes, rfl, ?_⟩
    have htake : source.rest.take bytes.length = bytes :=
      (List.prefix_iff_eq_take.mp hnext).symm
    rw [readExact, readMore_eq hsteady _ hnext.length_le, htake]
    rfl
  starves := fun _ warnings hcuts =>
    readMore_starves hcuts.steady hcuts.ending #[] hcuts.length_lt r warnings

theorem reads_byte (b : UInt8) (r : Running) :
    Reads byte r [b] (· = b) (r.absorb [b]) := by
  refine reads_last (reads_readExact [b] r) ?_
  rintro _ rfl
  exact reads_pure (P := (· = b)) rfl _

/-! ## Trailers -/

theorem reads_skip (bytes : Bytes) (r : Running) :
    Reads (skip bytes.length) r bytes (· = bytes) r where
  takes := by
    intro source warnings hsteady hnext
    obtain ⟨_, rfl, hread⟩ :=
      (reads_readExact bytes r).takes source warnings hsteady hnext
    refine ⟨_, rfl, ?_⟩
    rw [skip, aside, hread]
  starves := by
    intro source warnings hcuts
    obtain ⟨s', hread⟩ :=
      (reads_readExact bytes r).starves source warnings hcuts
    refine ⟨{ s' with running := r }, ?_⟩
    rw [skip, aside, hread]

theorem length_trailer (r : Running) : r.trailer.length = r.kind.width :=
  LittleEndian.length_encode _ _

theorem reads_get (r : Running) :
    Reads (get : Scan State) r [] (·.running = r) r :=
  reads_nothing fun source warnings => ⟨⟨source, r, warnings⟩, rfl, rfl⟩

theorem reads_verify (r : Running) : Reads verify r r.trailer (· = true) r := by
  have hskip := reads_skip r.trailer r
  rw [length_trailer] at hskip
  rw [verify]
  refine reads_silent (reads_get r) ?_
  rintro s rfl
  refine reads_last hskip ?_
  rintro _ rfl
  exact reads_pure (P := (· = true)) (beq_self_eq_true s.running.trailer) _

/-- A trailer that matches is passed over without a word. -/
theorem reads_closePart (part : Section.Part) (strict : Bool) (r : Running) :
    Reads (closePart part strict) r r.trailer (fun _ => True) r := by
  refine reads_last (reads_verify r) ?_
  rintro _ rfl
  exact reads_pure trivial r

/-! ## Sections -/

/-- Where `bytes` comes next the scan takes them and gives a value with the
property `P` and no warning, whatever the running checksum is; where the source
ends inside `bytes`, that is what the scan fails for. -/
structure Parses (act : Scan α) (bytes : Bytes) (P : α → Prop) : Prop where
  takes : ∀ source r warnings, source.Steady → bytes <+: source.rest →
    ∃ a r', P a ∧ act ⟨source, r, warnings⟩ =
      .ok a ⟨source.advance bytes.length, r', warnings⟩
  starves : ∀ source r warnings, source.Cuts bytes →
    ∃ s', act ⟨source, r, warnings⟩ = .error .endOfStream s'

theorem parses_of_reads (h : ∀ r, ∃ r', Reads act r bytes P r') :
    Parses act bytes P where
  takes := by
    intro source r warnings hsteady hnext
    obtain ⟨r', h⟩ := h r
    obtain ⟨a, ha, hact⟩ := h.takes source warnings hsteady hnext
    exact ⟨a, r', ha, hact⟩
  starves := by
    intro source r warnings hcuts
    obtain ⟨r', h⟩ := h r
    exact h.starves source warnings hcuts

theorem parses_bind (hact : Parses act bytes P)
    (hf : ∀ a, P a → Parses (f a) rest Q) :
    Parses (act >>= f) (bytes ++ rest) Q where
  takes := by
    intro source r warnings hsteady hnext
    have hbytes : bytes <+: source.rest :=
      (List.prefix_append bytes rest).trans hnext
    obtain ⟨a, r₁, ha, hact⟩ := hact.takes source r warnings hsteady hbytes
    obtain ⟨b, r₂, hb, hf⟩ :=
      (hf a ha).takes _ r₁ warnings (hsteady.advance hbytes.length_le)
      (Source.prefix_rest_advance hnext)
    refine ⟨b, r₂, hb, bind_eq_ok.mpr ⟨a, _, hact, ?_⟩⟩
    rw [hf, Source.advance_advance, List.length_append]
  starves := by
    intro source r warnings hcuts
    refine starves_bind hcuts (hact.starves source r warnings)
      fun hbytes hsecond => ?_
    obtain ⟨a, r₁, ha, hact⟩ := hact.takes source r warnings hcuts.steady hbytes
    obtain ⟨s', hf⟩ := (hf a ha).starves _ r₁ warnings hsecond
    exact ⟨a, _, s', hact, hf⟩

theorem parses_pure {a : α} (h : P a) : Parses (pure a) [] P :=
  parses_of_reads fun r => ⟨r, reads_pure h r⟩

theorem parses_last (hact : Parses act bytes P)
    (hf : ∀ a, P a → Parses (f a) [] Q) :
    Parses (act >>= f) bytes Q := by
  have h := parses_bind hact hf
  rwa [List.append_nil] at h

theorem parses_known {e : Except Error α} {a : α} (h : e = .ok a)
    (hf : Parses (f a) rest Q) :
    Parses (liftM e >>= f) rest Q := by
  subst h
  exact hf

/-- The scan reads a source to its end where `bytes` is all that is left. Where
the source ends inside `bytes`, that is what the scan fails for, and where
something comes behind them, the scan tells how much. -/
structure ParsesAll (act : Scan α) (kind : Section.Kind) (bytes : Bytes)
    (P : α → Prop) : Prop where
  takes : ∀ source r warnings, source.Steady → source.rest = bytes →
    ∃ a s', P a ∧ act ⟨source, r, warnings⟩ = .ok a s' ∧ s'.warnings = warnings
  starves : ∀ source r warnings, source.Cuts bytes →
    ∃ s', act ⟨source, r, warnings⟩ = .error .endOfStream s'
  trails : ∀ source r warnings more, source.Steady →
    source.rest = bytes ++ more → more ≠ [] →
    ∃ s', act ⟨source, r, warnings⟩ =
      .error (.invalidEncoding (.trailingBytes kind more.length)) s'

variable {kind : Section.Kind}

theorem parsesAll_bind (hact : Parses act bytes P)
    (hf : ∀ a, P a → ParsesAll (f a) kind rest Q) :
    ParsesAll (act >>= f) kind (bytes ++ rest) Q where
  takes := by
    intro source r warnings hsteady hnext
    have hbytes : bytes <+: source.rest := hnext ▸ List.prefix_append bytes rest
    obtain ⟨a, r₁, ha, hact⟩ := hact.takes source r warnings hsteady hbytes
    obtain ⟨b, s', hb, hf, hwarnings⟩ := (hf a ha).takes _ r₁ warnings
      (hsteady.advance hbytes.length_le)
      (by rw [Source.rest_advance, hnext, List.drop_left])
    exact ⟨b, s', hb, bind_eq_ok.mpr ⟨a, _, hact, hf⟩, hwarnings⟩
  starves := by
    intro source r warnings hcuts
    refine starves_bind hcuts (hact.starves source r warnings)
      fun hbytes hsecond => ?_
    obtain ⟨a, r₁, ha, hact⟩ := hact.takes source r warnings hcuts.steady hbytes
    obtain ⟨s', hf⟩ := (hf a ha).starves _ r₁ warnings hsecond
    exact ⟨a, _, s', hact, hf⟩
  trails := by
    intro source r warnings more hsteady hnext hmore
    rw [List.append_assoc] at hnext
    have hbytes : bytes <+: source.rest :=
      hnext ▸ List.prefix_append bytes (rest ++ more)
    obtain ⟨a, r₁, ha, hact⟩ := hact.takes source r warnings hsteady hbytes
    obtain ⟨s', hf⟩ :=
      (hf a ha).trails _ r₁ warnings more (hsteady.advance hbytes.length_le)
      (by rw [Source.rest_advance, hnext, List.drop_left]) hmore
    exact ⟨s', bind_eq_error.mpr (.inr ⟨a, _, hact, hf⟩)⟩

theorem parsesAll_known {e : Except Error α} {a : α} (h : e = .ok a)
    (hf : ParsesAll (f a) kind rest Q) :
    ParsesAll (liftM e >>= f) kind rest Q := by
  subst h
  exact hf

/-- A scan for a whole source minds what is left over. -/
theorem parsesAll_whole (kind : Section.Kind) (h : Parses act bytes P) :
    ParsesAll (whole kind act) kind bytes P where
  takes := by
    intro source r warnings hsteady hrest
    obtain ⟨a, r', ha, hact⟩ :=
      h.takes source r warnings hsteady (hrest ▸ List.prefix_rfl)
    refine ⟨a, ⟨source.advance bytes.length, r', warnings⟩, ha, ?_, rfl⟩
    have hleft :
        source.backing.size - (source.position + bytes.length) = 0 := by
      have := source.length_rest
      rw [hrest] at this
      omega
    refine bind_eq_ok.mpr ⟨a, _, hact, bind_eq_ok.mpr ⟨_, _, rfl, ?_⟩⟩
    exact congrFun (if_pos hleft) _
  starves := by
    intro source r warnings hcuts
    obtain ⟨s', hact⟩ := h.starves source r warnings hcuts
    exact ⟨s', bind_eq_error.mpr (.inl hact)⟩
  trails := by
    intro source r warnings more hsteady hrest hmore
    obtain ⟨a, r', -, hact⟩ :=
      h.takes source r warnings hsteady (hrest ▸ List.prefix_append bytes more)
    have hleft : source.backing.size - (source.position + bytes.length) =
        more.length := by
      have := source.length_rest
      rw [hrest, List.length_append] at this
      omega
    refine ⟨⟨source.advance bytes.length, r', warnings⟩,
      bind_eq_error.mpr (.inr ⟨a, _, hact, ?_⟩)⟩
    refine bind_eq_error.mpr (.inr ⟨_, _, rfl, ?_⟩)
    rw [← hleft]
    exact congrFun (if_neg fun hzero => hmore
      (List.eq_nil_of_length_eq_zero (hleft ▸ hzero))) _

theorem ParsesAll.bind {g : α → Scan β} (h : ParsesAll act kind bytes P)
    (hg : ∀ a, P a → ∃ b, Q b ∧ g a = pure b) :
    ParsesAll (act >>= g) kind bytes Q where
  takes := by
    intro source r warnings hsteady hrest
    obtain ⟨a, s', ha, hact, hwarnings⟩ :=
      h.takes source r warnings hsteady hrest
    obtain ⟨b, hb, hg⟩ := hg a ha
    exact ⟨b, s', hb, bind_eq_ok.mpr ⟨a, s', hact, by rw [hg]; rfl⟩, hwarnings⟩
  starves := by
    intro source r warnings hcuts
    obtain ⟨s', hact⟩ := h.starves source r warnings hcuts
    exact ⟨s', bind_eq_error.mpr (.inl hact)⟩
  trails := by
    intro source r warnings more hsteady hrest hmore
    obtain ⟨s', hact⟩ := h.trails source r warnings more hsteady hrest hmore
    exact ⟨s', bind_eq_error.mpr (.inl hact)⟩

theorem run_of_parsesAll {backing : Backing}
    (h : ParsesAll act kind backing.toBytes P) :
    ∃ a, P a ∧ (run act (.ofBacking backing)).1 = .ok a := by
  obtain ⟨a, s', ha, hact, hwarnings⟩ :=
    h.takes (.ofBacking backing) (.start .standard) []
    (Source.steady_ofBacking backing) rfl
  refine ⟨a, ha, ?_⟩
  have hrun : EStateM.run act (.ofSource (.ofBacking backing)) = .ok a s' := hact
  rw [run, hrun]
  dsimp only
  rw [hwarnings]
  rfl

end Scan

end TripleStore
