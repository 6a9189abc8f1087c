import TripleStore.Proofs.Bitmap.Section
import TripleStore.Proofs.Bytes.Passes
import TripleStore.Proofs.Checksum
import TripleStore.Proofs.Sequence.Section
import TripleStore.Proofs.Store.Delimited

/-!
# Single bits that are flipped

Whatever a section says of itself behind its header, each byte that strict
reading passes over enters the running checksum, and where reading stops to
compare it, nothing may be left. So just that is accepted which bears its own
check (`Seals`), however its counts and widths divide it up, and two such texts
do not differ in a single bit (`sections_guarded`).
-/

namespace TripleStore

/-! ## Flipping a bit -/

/-- Flips bit `i`, where the bits are counted byte by byte from the lowest one. -/
def flipBit (bytes : Bytes) (i : Nat) : Bytes :=
  bytes.modify (i / 8) (· ^^^ (1 <<< (i % 8).toUInt8))

theorem xor_single_ne (b : UInt8) {k : Nat} (hk : k < 8) :
    b ^^^ (1 <<< k.toUInt8) ≠ b := by
  have hsingle : ∀ k < 8, (1 : UInt8) <<< k.toUInt8 ≠ 0 := by decide
  intro h
  apply hsingle k hk
  calc (1 : UInt8) <<< k.toUInt8
      = b ^^^ (b ^^^ (1 <<< k.toUInt8)) := by
        rw [← UInt8.xor_assoc, UInt8.xor_self, UInt8.zero_xor]
    _ = 0 := by rw [h, UInt8.xor_self]

/-- A bit that is flipped behind a header changes one byte there. -/
theorem exists_flipBit {header rest : Bytes} {i : Nat}
    (hfrom : 8 * header.length ≤ i) (hto : i < 8 * (header ++ rest).length) :
    ∃ a b b' c, b ≠ b' ∧ rest = a ++ b :: c ∧
      flipBit (header ++ rest) i = header ++ (a ++ b' :: c) := by
  have hlt : i / 8 < (header ++ rest).length :=
    (Nat.div_lt_iff_lt_mul (by decide)).mpr (by omega)
  obtain ⟨front, b, c, hsplit, hfront, hflip⟩ :=
    List.exists_of_modify (· ^^^ (1 <<< (i % 8).toUInt8)) hlt
  have hheader : header <+: front := by
    refine List.prefix_of_prefix_length_le
      (List.prefix_append header rest) ?_ ?_
    · exact hsplit ▸ List.prefix_append front (b :: c)
    · exact hfront ▸ (Nat.le_div_iff_mul_le (by decide)).mpr (by omega)
  obtain ⟨a, rfl⟩ := hheader
  rw [List.append_assoc] at hsplit hflip
  exact ⟨a, b, _, c, (xor_single_ne b (Nat.mod_lt i (by decide))).symm,
    List.append_cancel_left hsplit, hflip⟩

example : flipBit [0x52, 0x49] 9 = [0x52, 0x4B] := by decide

/-! ## Strict reading -/

namespace Scan

variable {α β γ : Type} {P : Bytes → α → γ → Prop} {act : Scan α}
  {act' : Scan γ} {f : α → Scan β}

/-- Where the scan comes to its end, it has passed over some bytes and over the
check that belongs to them and to what the running checksum took in before. -/
def Seals (act : Scan α) : Prop :=
  ∀ s a s', act s = .ok a s' →
  ∃ p, p ++ (s.running.absorb p).trailer <+: s.source.rest ∧
    s'.source = s.source.advance (p ++ (s.running.absorb p).trailer).length

theorem seals_throw (e : Error) : Seals (throw e : Scan α) := by
  intro s a s' h
  cases h

/-- All that is passed over before is sealed too. -/
theorem seals_bind (hact : Passes P act act') (hf : ∀ a, Seals (f a)) :
    Seals (act >>= f) := by
  intro s b s' hb
  obtain ⟨a, s₁, ha, hb⟩ := bind_eq_ok.mp hb
  obtain ⟨bytes, -, -, hbytes, rfl⟩ := hact.ok ha
  obtain ⟨p, hp, hs'⟩ := hf a _ b s' hb
  have habsorb :
      (s.past bytes).running.absorb p = s.running.absorb (bytes ++ p) :=
    (Running.absorb_append s.running bytes p).symm
  rw [habsorb] at hp hs'
  refine ⟨bytes ++ p, ?_, ?_⟩
  · rw [List.append_assoc]
    exact Source.append_prefix_rest hbytes hp
  · rw [hs', List.append_assoc, @List.length_append _ bytes,
      ← Source.advance_advance]
    rfl

theorem seals_closePart (part : Section.Part) (a : α) :
    Seals (closePart part true >>= fun _ => pure a) := by
  intro s _ s' h
  obtain ⟨u, s₁, hclose, ⟨⟩⟩ := bind_eq_ok.mp h
  exact ⟨[], closePart_eq_ok hclose⟩

/-- Nothing is left where a scan of a whole source comes to its end. -/
theorem whole_eq_ok {kind : Section.Kind} {s s' : State} {a : α}
    (h : whole kind act s = .ok a s') :
    act s = .ok a s' ∧ s'.source.rest = [] := by
  obtain ⟨b, s₁, hact, hleft⟩ := bind_eq_ok.mp h
  obtain ⟨n, _, ⟨⟩, hend⟩ := bind_eq_ok.mp hleft
  split at hend
  · next hzero =>
      cases hend
      exact ⟨hact, List.eq_nil_of_length_eq_zero
        (s'.source.length_rest.trans hzero)⟩
  · cases hend

/-- What is accepted behind a header is a text with its check. -/
theorem sealed_of_whole {kind : Section.Kind} {checksum : Checksum}
    {body : Scan α} {rest : Bytes} (hbody : Seals body) {a : α}
    (h : (run (whole kind (do
        let header ← (← Section.Header.read true).require kind
        restart (← header.checksum)
        body)) (.ofBytes ((Section.Header.leaf kind checksum).encode ++
          rest))).1.result = .ok a) :
    ∃ p, rest = sealed checksum p := by
  obtain ⟨s', h⟩ := run_eq_ok.mp h
  obtain ⟨h, hend⟩ := whole_eq_ok h
  have hrest := Source.rest_ofBytes
    ((Section.Header.leaf kind checksum).encode ++ rest)
  obtain ⟨_, rfl, hheader⟩ :=
    (Section.Header.reads_read (Section.Header.portable_leaf kind checksum)
    true (.start .standard)).takes (.ofBytes _) [] (Source.steady_ofBacking _)
    (hrest ▸ List.prefix_append _ rest)
  have hrequire :
      (Section.Header.leaf kind checksum).require kind =
        .ok (.leaf kind checksum) :=
    if_pos rfl
  rw [State.ofSource, bind_of_ok hheader,
    bind_of_ok (lift_eq_ok.mpr ⟨hrequire, rfl⟩),
    bind_of_ok (lift_eq_ok.mpr
      ⟨Section.Header.checksum_leaf kind checksum, rfl⟩),
    bind_of_ok (show restart checksum _ = .ok () _ from rfl)] at h
  obtain ⟨p, hp, hsource⟩ := hbody _ a s' h
  dsimp only at hp hsource
  rw [hsource, Source.rest_advance, List.drop_eq_nil_iff] at hend
  refine ⟨p, ?_⟩
  have hall := hp.eq_of_length_le hend
  rw [Source.rest_advance, hrest, List.drop_left] at hall
  exact hall.symm

end Scan

/-! ## Sections -/

open Scan
open Section (Header)

/-- However many bits the payload announces, it bears its check. -/
theorem Bitmap.sealed_of_ofBytes {checksum : Checksum} {rest : Bytes}
    {b : Bitmap}
    (h : (ofBytes ((Header.leaf .bitmap checksum).encode ++ rest)).result =
      .ok b) :
    ∃ p, rest = sealed checksum p := by
  refine sealed_of_whole ?_ h
  refine seals_bind (plain_readExact 8) fun bytes => ?_
  dsimp only
  split
  · exact seals_throw _
  · exact seals_bind (Words.passes_read _ .loaded _) fun words =>
      seals_closePart .bitmap _

/-- Whatever width and size the payload announces, it bears its check. -/
theorem Sequence.sealed_of_ofBytes {checksum : Checksum} {rest : Bytes}
    {s : Sequence}
    (h : (ofBytes ((Header.leaf .sequence checksum).encode ++ rest)).result =
      .ok s) :
    ∃ p, rest = sealed checksum p := by
  refine sealed_of_whole ?_ h
  refine seals_bind plain_byte fun byte => ?_
  dsimp only
  split
  · refine seals_bind (Vbyte.plain_read 64) fun size => ?_
    split
    · exact seals_throw _
    · exact seals_bind (Words.passes_read _ .loaded _) fun words =>
        seals_closePart .sequence _
  · exact seals_throw _

/-- Behind the header, reading refuses the bytes with any one bit flipped. -/
structure Guarded {α : Type} (read : Bytes → Outcome α) (header bytes : Bytes) :
    Prop where
  begins : header <+: bytes
  refuses : ∀ i, 8 * header.length ≤ i → i < 8 * bytes.length →
    ∃ e, (read (flipBit bytes i)).result = .error e

theorem guarded_of_sealed {α : Type} {read : Bytes → Outcome α} {header : Bytes}
    {checksum : Checksum}
    (h : ∀ rest a, (read (header ++ rest)).result = .ok a →
      ∃ p, rest = sealed checksum p)
    (payload : Bytes) :
    Guarded read header (header ++ sealed checksum payload) where
  begins := List.prefix_append header _
  refuses := by
    intro i hfrom hto
    obtain ⟨a, b, b', c, hne, hsealed, hflip⟩ := exists_flipBit hfrom hto
    cases hread : (read
      (flipBit (header ++ sealed checksum payload) i)).result with
    | error e => exact ⟨e, rfl⟩
    | ok found =>
        -- what was accepted is sealed as well, and differs in the one byte
        rw [hflip] at hread
        obtain ⟨p, hp⟩ := h _ found hread
        exact absurd (eq_of_sealed hsealed hp.symm) hne

/-- No bit behind the header of a bitmap or a sequence can be flipped without
being noticed, whatever the check they are written with. -/
theorem sections_guarded (checksum : Checksum) (b : Bitmap) (s : Sequence) :
    Guarded Bitmap.ofBytes (Header.leaf .bitmap checksum).write.toBytes
      (b.write checksum).toBytes ∧
    Guarded Sequence.ofBytes (Header.leaf .sequence checksum).write.toBytes
      (s.write checksum).toBytes := by
  rw [Emit.toBytes_of_writes (Header.writes_write _),
    Emit.toBytes_of_writes (Header.writes_write _),
    Emit.toBytes_of_writes (b.writes_write checksum),
    Emit.toBytes_of_writes (s.writes_write checksum)]
  constructor
  · exact guarded_of_sealed (fun _ _ => Bitmap.sealed_of_ofBytes) b.payload
  · exact guarded_of_sealed (fun _ _ => Sequence.sealed_of_ofBytes) s.payload

end TripleStore
