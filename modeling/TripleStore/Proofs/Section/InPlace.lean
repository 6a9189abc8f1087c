import TripleStore.Proofs.Sequence.Made
import TripleStore.Proofs.Bitmap.Section

/-!
# Sections between other bytes

A section need not begin where its backing does, nor end there: reading takes
just its bytes, wherever the words happen to lie, and what comes of it is
written to the same bytes (`sections_found_between`).
-/

namespace TripleStore

/-- The bytes `pre`, `bytes` and `post` in a row, read from the end of `pre` on. -/
def Source.between (pre bytes post : Bytes) (residence : Residence) : Source :=
  (ofBacking ⟨(pre ++ bytes ++ post).toArray, residence⟩).advance pre.length

theorem Source.rest_between (pre bytes post : Bytes) (residence : Residence) :
    (between pre bytes post residence).rest = bytes ++ post := by
  have hbytes : (ofBacking ⟨(pre ++ bytes ++ post).toArray, residence⟩).rest =
      pre ++ bytes ++ post := rfl
  rw [between, rest_advance, hbytes, List.append_assoc, List.drop_left]

theorem Source.steady_between (pre bytes post : Bytes) (residence : Residence) :
    (between pre bytes post residence).Steady := by
  refine (steady_ofBacking _).advance ?_
  show pre.length ≤ (pre ++ bytes ++ post).length
  rw [List.append_assoc, List.length_append]
  exact Nat.le_add_right _ _

/-- What `a` writes is found between any bytes, on the heap or in a map: reading
begins where it does and stops where it ends, without a warning, and gives a
value that is known by `a` and written to the same bytes. -/
def FoundBetween {α : Type} (read : Scan α) (write : α → Emit Unit)
    (P : α → Prop) (a : α) : Prop :=
  ∀ pre post residence, ∃ found s',
    read (.ofSource (.between pre (write a).toBytes post residence)) =
      .ok found s' ∧
    s'.source.position = pre.length + (write a).toBytes.length ∧
    s'.source.rest = post ∧
    s'.warnings = [] ∧ P found ∧ (write found).toBytes = (write a).toBytes

theorem foundBetween_of_reads {α : Type} {read : Scan α} {write : α → Emit Unit}
    {P Q : α → Prop} {a : α} {bytes : Bytes} {r : Running}
    (hwrite : Emit.Writes (write a) bytes)
    (hread : Scan.Reads read (.start .standard) bytes P r)
    (hP : ∀ b, P b → Q b ∧ write b = write a) :
    FoundBetween read write Q a := by
  intro pre post residence
  rw [Emit.toBytes_of_writes hwrite]
  have hrest := Source.rest_between pre bytes post residence
  obtain ⟨found, hfound, hact⟩ :=
    hread.takes (.between pre bytes post residence) []
    (Source.steady_between _ _ _ _) (hrest ▸ List.prefix_append bytes post)
  obtain ⟨hQ, hsame⟩ := hP found hfound
  refine ⟨found, _, hact, ?_, ?_, rfl, hQ, ?_⟩
  · show 0 + pre.length + bytes.length = _
    rw [Nat.zero_add]
  · rw [Source.rest_advance, hrest, List.drop_left]
  · rw [hsame, Emit.toBytes_of_writes hwrite]

/-- Under any configuration and with any check, a bitmap that is read in its
place is equal to the one that was written, and a sequence has the same numbers
in the same width. -/
theorem sections_found_between (config : Config) (checksum : Checksum)
    (b : Bitmap) {s : Sequence} (hs : s.Made) :
    FoundBetween (Bitmap.read config) (·.write checksum)
      (fun c => (c == b) = true) b ∧
    FoundBetween (Sequence.read config) (·.write checksum)
      (fun t => t.width = s.width ∧ t.size = s.size ∧
        ∀ i, t.get i = s.get i) s := by
  constructor
  · refine foundBetween_of_reads (b.writes_write checksum)
      (b.reads_read checksum config _) ?_
    intro c hsame
    exact ⟨hsame.symm.beq, hsame.symm.write checksum⟩
  · refine foundBetween_of_reads (s.writes_write checksum)
      (Sequence.reads_read hs.portable checksum config _) ?_
    intro t hsame
    exact ⟨⟨hsame.width.symm, hsame.size.symm, fun i => (hsame.get i).symm⟩,
      (hsame.write checksum).symm⟩

theorem sections_found_between_mapped :
    ∃ b s t u, Bitmap.ofWords #[0xFF, 1] 3 = .ok b ∧
    Sequence.create 5 = .ok s ∧ s.append 17 = .ok t ∧ t.set 0 9 = .ok u ∧
    FoundBetween (Bitmap.read ⟨.spo, .mapped, .lazy, .crc32, false⟩)
      (·.write .crc8) (fun c => (c == b) = true) b ∧
    FoundBetween (Sequence.read ⟨.spo, .mapped, .lazy, .crc32, false⟩)
      (·.write .crc8) (fun v => v.width = u.width ∧ v.size = u.size ∧
        ∀ i, v.get i = u.get i) u := by
  have heval : ((do
      let b ← Bitmap.ofWords #[0xFF, 1] 3
      let s ← Sequence.create 5
      let t ← s.append 17
      let u ← t.set 0 9
      return b.size + u.size : Except Error Nat)).toOption =
        some 4 := by decide +kernel
  obtain ⟨b, hb, heval⟩ := bind_eq_ok.mp (toOption_eq_some.mp heval)
  obtain ⟨s, hs, heval⟩ := bind_eq_ok.mp heval
  obtain ⟨t, ht, heval⟩ := bind_eq_ok.mp heval
  obtain ⟨u, hu, -⟩ := bind_eq_ok.mp heval
  have hmade : u.Made := .replaced (.appended (.created hs) ht) hu
  exact ⟨b, s, t, u, hb, hs, ht, hu,
    sections_found_between ⟨.spo, .mapped, .lazy, .crc32, false⟩ .crc8 b hmade⟩

end TripleStore
