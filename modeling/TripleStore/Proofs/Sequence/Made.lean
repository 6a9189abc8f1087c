import TripleStore.Proofs.Sequence.Holding

/-!
# Where sequences come from

A sequence is created empty and values are appended and replaced, or it is made
of a list, or it is read. However it came about, its values and their bits can
be counted in a word (`Made.portable`): reading refuses what cannot, and memory
has no room for it.
-/

namespace TripleStore.Sequence

/-- The sequence was created, changed, packed or read. Numbers that are packed
are fewer than a word can count, and so are their bits, as they would not fit
into memory otherwise. -/
inductive Made : Sequence → Prop
  | created {width : Nat} {s : Sequence} (h : create width = .ok s) : Made s
  | packed (values : List UInt64) (hsize : values.length < capacity 64)
      (hbits : values.length * (ofList values).width < capacity 64) :
      Made (ofList values)
  | appended {s t : Sequence} {value : UInt64} (hs : Made s)
    (h : s.append value = .ok t) : Made t
  | replaced {s t : Sequence} {i : Nat} {value : UInt64} (hs : Made s)
    (h : s.set i value = .ok t) :
      Made t
  | read {config : Config} {before after : Scan.State} {s : Sequence}
      (h : Sequence.read config before = .ok s after) : Made s

variable {s t : Sequence}

/-- Appending stops short of what a word cannot count. -/
theorem portable_of_append {value : UInt64} (h : s.append value = .ok t) :
    t.Portable := by
  obtain ⟨-, -, hroom, -, hwidth, hsize⟩ := append_eq_ok h
  refine ⟨?_, ?_⟩
  · rw [hsize]
    exact hroom.1
  · rw [hsize, hwidth]
    exact hroom.2

/-- Reading refuses a size or a number of bits that a word cannot count. -/
theorem portable_of_read (config : Config) :
    Scan.Yields (read config) Portable := by
  refine Scan.yields_bind fun _ => Scan.yields_bind fun _ =>
    Scan.yields_bind fun _ =>
    Scan.yields_bind fun _ => Scan.yields_bind fun byte => ?_
  dsimp only
  split
  · refine Scan.yields_then (Vbyte.yields_read 64) fun size hsize => ?_
    split
    · exact Scan.yields_throw _ _
    · next hbits =>
        exact Scan.yields_bind fun _ => Scan.yields_bind fun _ =>
          Scan.yields_pure ⟨hsize, Nat.lt_of_not_le hbits⟩
  · exact Scan.yields_throw _ _

theorem Made.portable (h : s.Made) : s.Portable := by
  induction h with
  | created h =>
      unfold create at h
      split at h
      · cases h
        exact ⟨capacity_pos 64, by rw [Nat.zero_mul]; exact capacity_pos 64⟩
      · cases h
  | packed values hsize hbits => exact ⟨hsize, hbits⟩
  | appended _ h _ => exact portable_of_append h
  | replaced hs h ih =>
      obtain ⟨-, -, -, hwidth, hsize⟩ := set_eq_ok h
      exact ⟨hsize ▸ ih.size, by rw [hwidth, hsize]; exact ih.bits⟩
  | read h => exact portable_of_read _ _ _ _ h

end TripleStore.Sequence
