import TripleStore.Proofs.Section.Header
import TripleStore.Proofs.Vbyte.Shortest

/-!
# Which headers come back

Writing sets no bounds, reading does: it knows one version, and a key or a value
may take so many bytes and no more. A header that keeps to that is read as it
was written. Of any other, reading goes through the pieces that are in order and
finds fault with the first that is not (`Refuses`), so that no header comes back
as another one (`read_write_iff`).
-/

namespace TripleStore

namespace Scan

variable {α β : Type} {act : Scan α} {f : α → Scan β} {r r₁ : Running}
  {bytes rest : Bytes} {P : α → Prop}

/-- Where `bytes` comes next the scan finds fault with the format, whatever
comes behind them and in however many pieces the source yields them. -/
def Refuses (act : Scan α) (r : Running) (bytes : Bytes) : Prop :=
  ∀ source warnings, source.Steady → bytes <+: source.rest →
    ∃ fault s', act ⟨source, r, warnings⟩ = .error (.invalidEncoding fault) s'

theorem refuses_throw (fault : FormatFault) (r : Running) (bytes : Bytes) :
    Refuses (throw (.invalidEncoding fault) : Scan α) r bytes :=
      fun _ _ _ _ => ⟨fault, _, rfl⟩

/-- The fault is in the first piece. -/
theorem refuses_first (h : Refuses act r bytes) (rest : Bytes) :
    Refuses (act >>= f) r (bytes ++ rest) := by
  intro source warnings hsteady hnext
  obtain ⟨fault, s', hact⟩ :=
    h source warnings hsteady ((List.prefix_append bytes rest).trans hnext)
  exact ⟨fault, s', bind_eq_error.mpr (.inl hact)⟩

/-- The fault is behind the first piece. -/
theorem refuses_bind (hact : Reads act r bytes P r₁)
    (hf : ∀ a, P a → Refuses (f a) r₁ rest) :
    Refuses (act >>= f) r (bytes ++ rest) := by
  intro source warnings hsteady hnext
  have hbytes : bytes <+: source.rest :=
    (List.prefix_append bytes rest).trans hnext
  obtain ⟨a, ha, hact⟩ := hact.takes source warnings hsteady hbytes
  obtain ⟨fault, s', hf⟩ :=
    hf a ha _ warnings (hsteady.advance hbytes.length_le)
    (Source.prefix_rest_advance hnext)
  exact ⟨fault, s', bind_eq_error.mpr (.inr ⟨a, _, hact, hf⟩)⟩

/-- The first piece is read in silence. -/
theorem refuses_silent (hact : Reads act r [] P r₁)
    (hf : ∀ a, P a → Refuses (f a) r₁ rest) :
    Refuses (act >>= f) r rest := refuses_bind hact hf

theorem refuses_known {e : Except Error α} {a : α} (h : e = .ok a)
    (hf : Refuses (f a) r rest) :
    Refuses (liftM e >>= f) r rest := by
  subst h
  exact hf

end Scan

open Scan

/-- A number that reaches the bound is not read. -/
theorem Vbyte.refuses_read {bits n : Nat} (hbits : 0 < bits)
    (h : capacity bits ≤ n) (r : Running) :
    Refuses (read bits) r (encode n) := by
  rintro source warnings hsteady ⟨rest, hrest⟩
  have hdecode := decode_encode hbits n rest
  rw [if_neg (Nat.not_lt.mpr h), hrest] at hdecode
  have hread := readsTo_read bits source.rest ⟨source, r, warnings⟩ hsteady rfl
  rw [hdecode] at hread
  obtain ⟨t, hfail⟩ := hread (by simp)
  exact ⟨_, t, hfail⟩

namespace Section.Header

variable {h : Header}

theorem refuses_text {text : String} (hlong : ¬ Short text) (r : Running) :
    Refuses readText r (encodeText text) := by
  rw [readText, encodeText]
  by_cases hfits : (textBytes text).length < capacity 64
  · refine refuses_bind (Vbyte.reads_read (by decide) hfits r) ?_
    rintro _ rfl
    dsimp only
    rw [if_pos (Nat.not_le.mp hlong)]
    exact refuses_throw (.longProperty (textBytes text).length) _
      (textBytes text)
  · exact refuses_first (Vbyte.refuses_read (by decide) (Nat.not_lt.mp hfits) r) _

/-- The first text that is too long is found fault with. -/
theorem refuses_properties {es : List (String × String)}
    (hlong : ¬ ∀ e ∈ es, Short e.1 ∧ Short e.2) (p : Properties) (r : Running) :
    Refuses (readProperties p es.length) r (es.flatMap encodeEntry) := by
  induction es generalizing p r with
  | nil => exact absurd (fun e he => absurd he List.not_mem_nil) hlong
  | cons e es ih =>
      rw [List.flatMap_cons, encodeEntry, List.append_assoc, List.length_cons,
        readProperties]
      by_cases hkey : Short e.1
      · refine refuses_bind (reads_text hkey r) ?_
        rintro _ rfl
        by_cases hvalue : Short e.2
        · refine refuses_bind (reads_text hvalue _) ?_
          rintro _ rfl
          refine ih (fun hshort => hlong ?_) _ _
          rw [List.forall_mem_cons]
          exact ⟨⟨hkey, hvalue⟩, hshort⟩
        · exact refuses_first (refuses_text hvalue _) _
      · exact refuses_first (refuses_text hkey r) _

theorem refuses_kind (hversion : h.version ≠ currentVersion) (r : Running) :
    Refuses readKind r [h.kind.tag, h.version] := by
  rw [readKind, ← List.singleton_append]
  refine refuses_bind (reads_byte h.kind.tag r) ?_
  rintro _ rfl
  rw [← List.append_nil [h.version]]
  refine refuses_bind (reads_byte h.version _) ?_
  rintro _ rfl
  refine refuses_known (Kind.parseTag_tag h.kind) ?_
  rw [if_neg hversion]
  exact refuses_throw _ _ []

/-- A header that does not keep to the bounds is not read. -/
theorem refuses_read (hnot : ¬ h.Portable) (strict : Bool) (r : Running) :
    Refuses (read strict) r h.encode := by
  rw [encode_eq h, read]
  refine refuses_silent (reads_restart sealKind r) fun _ _ => ?_
  refine refuses_bind (reads_readExact magic _) ?_
  rintro _ rfl
  rw [if_neg (fun hne => hne rfl)]
  by_cases hversion : h.version = currentVersion
  · refine refuses_bind (reads_kind hversion _) ?_
    rintro _ rfl
    by_cases hsize : h.properties.size < capacity 64
    · refine refuses_bind (Vbyte.reads_read (by decide) hsize _) ?_
      rintro _ rfl
      exact refuses_first
        (refuses_properties (fun htexts => hnot ⟨hversion, hsize, htexts⟩) _ _)
        _
    · exact refuses_first
        (Vbyte.refuses_read (by decide) (Nat.not_lt.mp hsize) _) _
  · exact refuses_first (refuses_kind hversion _) _

/-- With as many properties as can be counted, a header comes back, up to where
its bytes end and without a word, just if it is of the current version and its
texts are not too long, and reading finds fault with any other. -/
theorem read_write_iff (hsize : h.properties.size < capacity 64) (strict : Bool)
    {s : Scan.State} {rest : Bytes} (hsteady : s.source.Steady)
    (hrest : s.source.rest = h.write.toBytes ++ rest) :
    ((∃ t, read strict s = .ok h t ∧ t.source.rest = rest ∧
      t.warnings = s.warnings) ↔
      h.version = currentVersion ∧ ∀ e ∈ h.properties.entries, Short e.1 ∧
        Short e.2) ∧
    (¬ (h.version = currentVersion ∧ ∀ e ∈ h.properties.entries, Short e.1 ∧
      Short e.2) →
      ∃ fault t, read strict s = .error (.invalidEncoding fault) t) := by
  rw [Emit.toBytes_of_writes (writes_write h)] at hrest
  have hnext : h.encode <+: s.source.rest :=
    hrest ▸ List.prefix_append h.encode rest
  have hrefused :
      ¬ (h.version = currentVersion ∧ ∀ e ∈ h.properties.entries, Short e.1 ∧
        Short e.2) →
      ∃ fault t, read strict s = .error (.invalidEncoding fault) t := by
    intro hnot
    have hportable : ¬ h.Portable :=
      fun hportable => hnot ⟨hportable.version, hportable.texts⟩
    exact refuses_read hportable strict s.running s.source s.warnings
      hsteady hnext
  refine ⟨⟨?_, ?_⟩, hrefused⟩
  · rintro ⟨t, hread, -⟩
    by_contra hnot
    obtain ⟨fault, t', hfail⟩ := hrefused hnot
    cases hread.symm.trans hfail
  · rintro ⟨hversion, htexts⟩
    obtain ⟨_, rfl, hread⟩ :=
      (reads_read ⟨hversion, hsize, htexts⟩ strict s.running).takes s.source
      s.warnings hsteady hnext
    refine ⟨_, hread, ?_, rfl⟩
    dsimp only
    rw [Source.rest_advance, hrest, List.drop_left]

/-- A header with two properties comes back from in front of something else,
read byte by byte, and with the next version it is refused. -/
theorem read_write_iff_order :
    let new (version : UInt8) : Header :=
      (⟨.triples, version, .empty⟩ : Header).set "order" "SPO"
        |>.set "triples" "42"
    let start (h : Header) : Scan.State :=
      .ofSource (.chunked (h.write.toBytes ++ [36, 84]) 1 .endOfFile)
    (∃ t, read true (start (new 1)) = .ok (new 1) t ∧ t.source.rest = [36, 84] ∧
      t.warnings = []) ∧
    ∃ fault t, read false (start (new 2)) =
      .error (.invalidEncoding fault) t := by
  intro new start
  have hsteady (h : Header) : (start h).source.Steady :=
    Source.steady_chunked _ Nat.one_pos .endOfFile
  have hfirst := @read_write_iff (new 1) (by decide) true (start (new 1))
    [36, 84] (hsteady _) rfl
  have hsecond := @read_write_iff (new 2) (by decide) false (start (new 2))
    [36, 84] (hsteady _) rfl
  exact ⟨hfirst.1.mpr (by decide), hsecond.2 (by decide)⟩

end Section.Header

end TripleStore
