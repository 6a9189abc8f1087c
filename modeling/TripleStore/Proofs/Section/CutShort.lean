import TripleStore.Proofs.PredicateIndex.Section
import TripleStore.Store.Basic

/-!
# Sections that find no room

A section that is written where there is not room enough leaves what fits of it
and nothing else: all that is written, headers and checks included, goes through
one loop that ends at the first call that takes nothing, and no step goes on
behind a step that failed (`sections_cut_short`).
-/

namespace TripleStore

namespace Emit

/-- Into a sink with room for `n` bytes go the first `n` of those that are
written where there is room for all. The emission succeeds just if these are all
of them, and else it fails because the sink is full. Whatever the sink, where
the emission fails, a front part of its bytes has come in, and the call that was
refused then was the last. -/
structure CutShort (act : Emit Unit) : Prop where
  unlimited : (act.run .unlimited).1 = .ok ()
  leaves : ∀ n, (act.run (.limited n)).2.toBytes = act.toBytes.take n
  succeeds : ∀ n, (act.run (.limited n)).1 = .ok () ↔ act.toBytes.length ≤ n
  fails : ∀ n, n < act.toBytes.length →
    (act.run (.limited n)).1 = .error (.io .full)
  last : ∀ sink e, (act.run sink).1 = .error e →
    e = .io .full ∧ ∃ taken, sink.Stops act.toBytes taken (act.run sink).2

variable {act : Emit Unit} {out : Bytes}

/-- All of `out` finds room and is taken, or the first `n` bytes are and the
emission fails. -/
theorem run_limited (h : Writes act out) (n : Nat) :
    (out.length ≤ n ∧ (act.run (.limited n)).1 = .ok () ∧
      (act.run (.limited n)).2.toBytes = out) ∨
    (n < out.length ∧ (act.run (.limited n)).1 = .error (.io .full) ∧
      (act.run (.limited n)).2.toBytes = out.take n) := by
  rcases run_cases h (.limited n) with ⟨haccepts, hok⟩ | ⟨taken, hstops, herror⟩
  · exact .inl ⟨Sink.length_le_of_accepts_limited haccepts, hok,
      haccepts.toBytes⟩
  · obtain ⟨hlt, hbytes⟩ := Sink.toBytes_of_stops_limited hstops
    exact .inr ⟨hlt, herror, hbytes⟩

theorem cutShort_of_writes (h : Writes act out) : act.CutShort := by
  have hout := toBytes_of_writes h
  refine ⟨(run_of_willing h Sink.willing_unlimited).2, ?_, ?_, ?_, ?_⟩
  · intro n
    rw [hout]
    rcases run_limited h n with ⟨hle, -, hbytes⟩ | ⟨-, -, hbytes⟩
    · rw [hbytes, List.take_of_length_le hle]
    · exact hbytes
  · intro n
    rw [hout]
    rcases run_limited h n with ⟨hle, hok, -⟩ | ⟨hlt, herror, -⟩
    · exact iff_of_true hok hle
    · refine iff_of_false (fun hok => ?_) (Nat.not_le.mpr hlt)
      rw [herror] at hok
      cases hok
  · intro n hlt
    rw [hout] at hlt
    rcases run_limited h n with ⟨hle, -, -⟩ | ⟨-, herror, -⟩
    · exact absurd hlt (Nat.not_lt.mpr hle)
    · exact herror
  · intro sink e he
    rw [hout]
    rcases run_cases h sink with ⟨-, hok⟩ | ⟨taken, hstops, herror⟩
    · rw [hok] at he
      cases he
    · rw [herror] at he
      cases he
      exact ⟨rfl, taken, hstops⟩

end Emit

/-- Whatever is saved, under whatever checksum, fails cleanly where it finds no
room. -/
theorem sections_cut_short (checksum : Checksum) (h : Section.Header)
    (b : Bitmap) (q : Sequence) (a : Adjacency) (s : Store)
    (x : PredicateIndex) :
    h.write.CutShort ∧ (b.write checksum).CutShort ∧
    (q.write checksum).CutShort ∧
      (a.write checksum).CutShort ∧ (s.tree.write checksum).CutShort ∧
      (x.write checksum).CutShort :=
  ⟨Emit.cutShort_of_writes h.writes_write,
    Emit.cutShort_of_writes (b.writes_write checksum),
    Emit.cutShort_of_writes (q.writes_write checksum),
    Emit.cutShort_of_writes (a.writes_write checksum),
    Emit.cutShort_of_writes (s.tree.writes_write checksum),
    Emit.cutShort_of_writes (x.writes_write checksum)⟩

/-- The 98 bytes of an index find room for 40 of them. -/
theorem sections_cut_short_index :
    ∃ s x, (Store.build .standard [⟨1, 1, 1⟩]).result = .ok s ∧
    PredicateIndex.build s.tree = .ok x ∧ (x.write .crc8).toBytes.length = 98 ∧
    ((x.write .crc8).run (.limited 40)).2.toBytes =
      (x.write .crc8).toBytes.take 40 ∧
    ((x.write .crc8).run (.limited 40)).1 = .error (.io .full) := by
  have heval : (do
      let s ← (Store.build .standard [⟨1, 1, 1⟩]).result
      let x ← PredicateIndex.build s.tree
      return (x.write .crc8).toBytes.length).toOption =
        some 98 := by decide +kernel
  obtain ⟨s, hs, heval⟩ := bind_eq_ok.mp (toOption_eq_some.mp heval)
  obtain ⟨x, hx, heval⟩ := bind_eq_ok.mp heval
  have hlength : (x.write .crc8).toBytes.length = 98 := Except.ok.inj heval
  have hcut :=
    (sections_cut_short .crc8 ⟨.bitmap, 1, .empty⟩ s.tree.middles.bitmap
    s.tree.middles.sequence s.tree.middles s x).2.2.2.2.2
  exact ⟨s, x, hs, hx, hlength, hcut.leaves 40, hcut.fails 40 (by omega)⟩

end TripleStore
