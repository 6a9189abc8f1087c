import TripleStore.Proofs.PredicateIndex.Section
import TripleStore.Proofs.Store.Made

/-!
# Sections tell where they end

What is written can be read only as a whole (`sections_delimited`): where any
part of its end is missing, reading runs out of bytes before it can object to
anything else, and where anything comes behind it, reading tells how much.
-/

namespace TripleStore

/-- Of the bytes that begin alike, reading accepts just `bytes`. -/
structure Delimited {α : Type} (kind : Section.Kind) (read : Bytes → Outcome α)
    (bytes : Bytes) :
    Prop where
  prefixes : ∀ part, part <+: bytes → part ≠ bytes →
    (read part).result = .error .endOfStream
  extensions : ∀ more, more ≠ [] →
    (read (bytes ++ more)).result =
      .error (.invalidEncoding (.trailingBytes kind more.length))

variable {α β : Type} {kind : Section.Kind} {bytes : Bytes}

theorem Outcome.result_bind_error {o : Outcome α} {e : Error}
    (h : o.result = .error e) (f : α → Outcome β) :
    (o >>= f).result = .error e := by
  rw [result_bind, h]
  rfl

/-- What is done with a value that was read does not matter where none is. -/
theorem Delimited.bind {read : Bytes → Outcome α}
    (h : Delimited kind read bytes) (f : α → Outcome β) :
    Delimited kind (fun part => read part >>= f) bytes where
  prefixes part hpart hne :=
    Outcome.result_bind_error (h.prefixes part hpart hne) f
  extensions more hmore := Outcome.result_bind_error (h.extensions more hmore) f

theorem Source.rest_ofBytes (part : Bytes) :
    (Source.ofBytes part).rest = part := by
  simp [ofBytes, ofBacking, rest, Backing.ofBytes, Backing.toBytes]

theorem Scan.delimited_of_parsesAll {act : Scan α} {P : α → Prop}
    (h : ParsesAll act kind bytes P) :
    Delimited kind (fun part => (run act (.ofBytes part)).1) bytes where
  prefixes := by
    intro part hpart hne
    have hrest := Source.rest_ofBytes part
    refine run_eq_error.mpr
      (h.starves _ _ _ ⟨Source.steady_ofBacking _, rfl, ?_, ?_⟩)
    · rwa [hrest]
    · rwa [hrest]
  extensions := by
    intro more hmore
    exact run_eq_error.mpr (h.trails _ _ _ more (Source.steady_ofBacking _)
      (Source.rest_ofBytes (bytes ++ more)) hmore)

/-- No section that is written, with whatever checksum, can be read without its
last bytes or with bytes behind it. -/
theorem sections_delimited (checksum : Checksum) (config : Config) (b : Bitmap)
    {q : Sequence} (hq : q.Portable) {s : Store} (hs : s.Made)
    (x : PredicateIndex) :
    Delimited .bitmap Bitmap.ofBytes (b.write checksum).toBytes ∧
    Delimited .sequence Sequence.ofBytes (q.write checksum).toBytes ∧
    Delimited .triples (Store.ofBytes config) (s.tree.write checksum).toBytes ∧
    Delimited .predicateIndex (fun bytes =>
      PredicateIndex.ofBacking config (.ofBytes bytes))
      (x.write checksum).toBytes := by
  rw [Emit.toBytes_of_writes (b.writes_write checksum),
    Emit.toBytes_of_writes (q.writes_write checksum),
    Emit.toBytes_of_writes (s.tree.writes_write checksum),
    Emit.toBytes_of_writes (x.writes_write checksum)]
  have hbitmap := Scan.parses_of_reads fun r =>
    ⟨_, b.reads_read checksum .standard r⟩
  have hsequence := Scan.parses_of_reads fun r =>
    ⟨_, Sequence.reads_read hq checksum .standard r⟩
  have htriples := Tree.parses_read hs.consistent checksum config
  refine ⟨?_, ?_, ?_, ?_⟩
  · exact Scan.delimited_of_parsesAll (Scan.parsesAll_whole .bitmap hbitmap)
  · exact Scan.delimited_of_parsesAll (Scan.parsesAll_whole .sequence hsequence)
  · exact (Scan.delimited_of_parsesAll
      (Scan.parsesAll_whole .triples htriples)).bind _
  · exact Scan.delimited_of_parsesAll (x.parsesAll_readWhole checksum config)

theorem sections_delimited_lenient :
    ∃ b s x, Bitmap.ofBits [true, false, true] = .ok b ∧
    (Store.build .standard [⟨1, 1, 1⟩, ⟨2, 1, 2⟩]).result = .ok s ∧
    PredicateIndex.build s.tree = .ok x ∧
    Delimited .bitmap Bitmap.ofBytes (b.write .crc8).toBytes ∧
    Delimited .sequence Sequence.ofBytes
      ((Sequence.ofList [5, 0, 3]).write .crc8).toBytes ∧
    Delimited .triples (Store.ofBytes ⟨.ops, .mapped, .eager, .crc32, false⟩)
      (s.tree.write .crc8).toBytes ∧
    Delimited .predicateIndex
      (fun bytes => PredicateIndex.ofBacking ⟨.ops, .mapped, .eager, .crc32,
        false⟩ (.ofBytes bytes))
      (x.write .crc8).toBytes := by
  have heval : (Bitmap.ofBits [true, false, true] >>= fun b =>
      (Store.build .standard [⟨1, 1, 1⟩, ⟨2, 1, 2⟩]).result >>= fun s =>
        PredicateIndex.build s.tree >>=
          fun x => .ok (b.size + x.size)).toOption = some 5 := by
    decide +kernel
  obtain ⟨b, hb, heval⟩ := bind_eq_ok.mp (toOption_eq_some.mp heval)
  obtain ⟨s, hs, heval⟩ := bind_eq_ok.mp heval
  obtain ⟨x, hx, -⟩ := bind_eq_ok.mp heval
  exact ⟨b, s, x, hb, hs, hx,
    sections_delimited .crc8 ⟨.ops, .mapped, .eager, .crc32, false⟩ b
    (q := .ofList [5, 0, 3]) ⟨by decide, by decide +kernel⟩ (.built _ _ hs) x⟩

end TripleStore
