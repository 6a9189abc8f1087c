import TripleStore.PredicateIndex.Section
import TripleStore.Proofs.Tree.Section

/-!
# Predicate indexes come back

An index that is written is read as an index with the same positions, which is
one of the same trees (`conflict?_congr`).
-/

namespace TripleStore.PredicateIndex

variable {x y : PredicateIndex} {t u : Tree}

/-- Whether an index is one of a tree depends on what the two hold alone. -/
theorem conflict?_congr (hx : x.positions.Same y.positions) (ht : t.Same u) :
    x.conflict? t = y.conflict? u := by
  have hstale : isStale t = isStale u := by
    funext entry
    rw [isStale, isStale, ← ht.middles.size]
    by_cases hentry : t.middles.size ≤ entry.2.toNat
    · rw [decide_eq_true hentry, Bool.true_or, Bool.true_or]
    · rw [ht.middles.value (Nat.lt_of_not_le hentry)]
  rw [conflict?, conflict?, predicates, predicates, size, size,
    ← hx.keys, ← hx.size, ← ht.maxMiddle, ← ht.middles.size,
    ← hx.toList, hstale]

/-! ## Sections -/

open Emit Scan
open Section (Header)
open Text.Numeral (decimal)

def encode (x : PredicateIndex) (kind : Checksum) : Bytes :=
  x.header.encode ++ x.positions.encode kind

theorem header_congr (h : x.positions.Same y.positions) :
    x.header = y.header := by
  rw [header, header, predicates, predicates, size, size, h.keys, h.size]

theorem encode_congr (h : x.positions.Same y.positions) (kind : Checksum) :
    x.encode kind = y.encode kind := by
  rw [encode, encode, header_congr h, h.encode]

theorem write_congr (h : x.positions.Same y.positions) (kind : Checksum) :
    x.write kind = y.write kind := by
  rw [write, write, header_congr h, h.write]

theorem writes_write (x : PredicateIndex) (kind : Checksum) :
    Writes (x.write kind) (x.encode kind) :=
  writes_bind x.header.writes_write (x.positions.writes_write kind)

theorem predicates_lt_capacity (x : PredicateIndex) :
    x.predicates < capacity 64 :=
  Nat.lt_of_le_of_lt x.positions.keys_le x.positions.size_lt_capacity

theorem portable_header (x : PredicateIndex) : x.header.Portable := by
  refine Header.portable_of_sets .predicateIndex
    [("predicates", decimal x.predicates), ("entries", decimal x.size)] ?_ ?_
  · show 2 < capacity 64
    decide
  · intro e he
    simp only [List.mem_cons, List.not_mem_nil, or_false] at he
    rcases he with rfl | rfl
    · exact ⟨show Header.Short "predicates" by decide,
        Header.short_decimal x.predicates_lt_capacity⟩
    · exact ⟨show Header.Short "entries" by decide,
        Header.short_decimal x.positions.size_lt_capacity⟩

theorem parse_predicates (x : PredicateIndex) :
    x.header.parseNat "predicates" = .ok x.predicates :=
  Header.parseNat_eq (by simp [header, Header.get?_set])
    x.predicates_lt_capacity

theorem parse_entries (x : PredicateIndex) :
    x.header.parseNat "entries" = .ok x.size :=
  Header.parseNat_eq (by simp [header, Header.get?_set])
    x.positions.size_lt_capacity

/-- An index comes back the same. -/
theorem parsesAll_readWhole (x : PredicateIndex) (kind : Checksum)
    (config : Config) :
    ParsesAll (readWhole config) .predicateIndex (x.encode kind) (fun y =>
      x.positions.Same y.positions) := by
  rw [encode, readWhole]
  refine parsesAll_bind
    (parses_of_reads fun r => ⟨_,
      Header.reads_read x.portable_header config.strict r⟩) ?_
  rintro _ rfl
  refine parsesAll_known (a := x.header) rfl ?_
  refine parsesAll_known x.parse_predicates ?_
  refine parsesAll_known x.parse_entries ?_
  refine (parsesAll_whole .predicateIndex
    (x.positions.parses_read kind config)).bind ?_
  intro positions hsame
  refine ⟨⟨positions⟩, hsame, ?_⟩
  rw [if_pos ⟨hsame.keys.symm, hsame.size.symm⟩]

/-- An index that is written comes back from its bytes, wherever they are kept. -/
theorem ofBacking_write (x : PredicateIndex) (kind : Checksum) (config : Config)
    (backing : Backing) (hbytes : backing.toBytes = (x.write kind).toBytes) :
    ∃ y : PredicateIndex, x.positions.Same y.positions ∧
      ofBacking config backing = .ok y := by
  rw [toBytes_of_writes (x.writes_write kind)] at hbytes
  exact run_of_parsesAll (hbytes ▸ x.parsesAll_readWhole kind config)

end TripleStore.PredicateIndex
