import TripleStore.Proofs.Adjacency.Section
import TripleStore.Proofs.Tree.Layout

/-!
# Trees come back

A consistent tree that is written is read as a tree with the same order, lists
and largest ids (`Same`), under any configuration and without a warning
(`parses_read`). The same trees have the same triples.
-/

namespace TripleStore

theorem Adjacency.size_lt_capacity (a : Adjacency) : a.size < capacity 64 :=
  a.portable_sequence.size

namespace Tree

/-- Two trees have the same contents. -/
structure Same (t u : Tree) : Prop where
  order : t.order = u.order
  middles : t.middles.Same u.middles
  minors : t.minors.Same u.minors
  maxMiddle : t.maxMiddle = u.maxMiddle
  maxMinor : t.maxMinor = u.maxMinor

variable {t u : Tree}

theorem Same.refl (t : Tree) : Same t t := ⟨rfl, .refl _, .refl _, rfl, rfl⟩

theorem Same.consistent (h : Same t u) (ht : t.Consistent) : u.Consistent where
  groups := by rw [← h.minors.keys, ← h.middles.size, ht.groups]
  maxMiddle := by rw [← h.maxMiddle, ← h.middles.sequence.toList, ht.maxMiddle]
  maxMinor := by rw [← h.maxMinor, ← h.minors.sequence.toList, ht.maxMinor]

/-- The occurrence of a position is one that there is. -/
theorem occurrence_lt (ht : t.Consistent) {i : Nat} (hi : i < t.size) :
    t.minors.key i - 1 < t.middles.size := by
  have hpos := t.minors.key_pos i
  have hle := Adjacency.key_le hi
  rw [ht.groups] at hle
  omega

theorem Same.coords (h : Same t u) (ht : t.Consistent) {i : Nat}
    (hi : i < t.size) :
    t.coords i = u.coords i := by
  have hj := occurrence_lt ht hi
  rw [Tree.coords, Tree.coords, ← h.minors.key (Nat.le_of_lt hi),
    ← h.middles.key (Nat.le_of_lt hj), ← h.middles.value hj,
    ← h.minors.value hi]

theorem Same.toList (h : Same t u) (ht : t.Consistent) :
    t.toList = u.toList := by
  have hsize : t.size = u.size := h.minors.size
  rw [Tree.toList, Tree.toList, ← hsize, ← h.order]
  apply List.map_congr_left
  intro i hi
  rw [h.coords ht (List.mem_range.mp hi)]

/-! ## Sections -/

open Emit Scan
open Section (Header)
open Text.Numeral (decimal)

def encode (t : Tree) (kind : Checksum) : Bytes :=
  t.header.encode ++ (t.middles.encode kind ++ t.minors.encode kind)

theorem Same.header (h : Same t u) : t.header = u.header := by
  have hsize : t.size = u.size := h.minors.size
  rw [Tree.header, Tree.header, h.order, hsize, h.maxMiddle, h.maxMinor]

theorem Same.encode (h : Same t u) (kind : Checksum) :
    t.encode kind = u.encode kind := by
  rw [Tree.encode, Tree.encode, h.header, h.middles.encode, h.minors.encode]

theorem Same.write (h : Same t u) (kind : Checksum) :
    t.write kind = u.write kind := by
  rw [Tree.write, Tree.write, h.header, h.middles.write, h.minors.write]

theorem writes_write (t : Tree) (kind : Checksum) :
    Writes (t.write kind) (t.encode kind) :=
  writes_bind t.header.writes_write
    (writes_bind (t.middles.writes_write kind) (t.minors.writes_write kind))

theorem portable_header (t : Tree) : t.header.Portable := by
  refine Header.portable_of_sets .triples [("order", t.order.name),
    ("triples", decimal t.size), ("max_y", decimal t.maxMiddle.toNat),
    ("max_z", decimal t.maxMinor.toNat)] ?_ ?_
  · show 4 < capacity 64
    decide
  · have hname : Header.Short t.order.name := by cases t.order <;> decide
    have hsize := Header.short_decimal t.minors.size_lt_capacity
    have hmiddle := Header.short_decimal t.maxMiddle.toNat_lt
    have hminor := Header.short_decimal t.maxMinor.toNat_lt
    intro e he
    simp only [List.mem_cons, List.not_mem_nil, or_false] at he
    rcases he with rfl | rfl | rfl | rfl
    · exact ⟨show Header.Short "order" by decide, hname⟩
    · exact ⟨show Header.Short "triples" by decide, hsize⟩
    · exact ⟨show Header.Short "max_y" by decide, hmiddle⟩
    · exact ⟨show Header.Short "max_z" by decide, hminor⟩

theorem parse_order (t : Tree) :
    t.header.parse "order" Order.ofName? = .ok t.order := by
  have hget : t.header.get? "order" = some t.order.name := by
    simp [header, Header.get?_set]
  rw [Header.parse, hget]
  cases t.order <;> rfl

theorem parse_size (t : Tree) : t.header.parseNat "triples" = .ok t.size :=
  Header.parseNat_eq (by simp [header, Header.get?_set])
    t.minors.size_lt_capacity

theorem parse_maxMiddle (t : Tree) :
    t.header.parseId "max_y" = .ok t.maxMiddle :=
  Header.parseId_eq (by simp [header, Header.get?_set])

theorem parse_maxMinor (t : Tree) : t.header.parseId "max_z" = .ok t.maxMinor :=
  Header.parseId_eq (by simp [header, Header.get?_set])

/-- A consistent tree comes back the same. -/
theorem parses_read (ht : t.Consistent) (kind : Checksum) (config : Config) :
    Parses (read config) (t.encode kind) (Same t) := by
  rw [encode, read]
  refine parses_bind
    (parses_of_reads fun r => ⟨_,
      Header.reads_read t.portable_header config.strict r⟩) ?_
  rintro _ rfl
  refine parses_known (a := t.header) rfl ?_
  refine parses_known t.parse_order ?_
  refine parses_known t.parse_size ?_
  refine parses_known t.parse_maxMiddle ?_
  refine parses_known t.parse_maxMinor ?_
  refine parses_bind (t.middles.parses_read kind config) fun middles hmiddles => ?_
  refine parses_last (t.minors.parses_read kind config) fun minors hminors => ?_
  have hsame : Same t ⟨t.order, middles, minors, t.maxMiddle, t.maxMinor⟩ :=
    ⟨rfl, hmiddles, hminors, rfl, rfl⟩
  have hnone := mismatch?_eq_none_iff.mpr
    ⟨hsame.minors.size.symm, hsame.consistent ht⟩
  dsimp only
  rw [show t.size = t.minors.size from rfl, hnone]
  exact parses_pure hsame

/-- A consistent tree that is written comes back from its bytes, wherever they
are kept. -/
theorem ofBacking_write (ht : t.Consistent) (kind : Checksum) (config : Config)
    (backing : Backing) (hbytes : backing.toBytes = (t.write kind).toBytes) :
    ∃ u, Same t u ∧ ofBacking config backing = .ok u := by
  rw [toBytes_of_writes (t.writes_write kind)] at hbytes
  exact run_of_parsesAll
    (parsesAll_whole .triples (hbytes ▸ parses_read ht kind config))

end Tree

end TripleStore
