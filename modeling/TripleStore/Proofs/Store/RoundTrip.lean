import TripleStore.Proofs.Cursor.Same
import TripleStore.Proofs.PredicateIndex.Section
import TripleStore.Proofs.Store.History

/-!
# Stores and indexes come back

A store that is saved, under any checksum, is loaded under any configuration as
a store that holds the same, answers alike and is saved to the same bytes; and
so is an index (`load_write`).
-/

namespace TripleStore

namespace PredicateIndex

variable {x y : PredicateIndex}

theorem occurrences_same (h : x.positions.Same y.positions) (p : Nat) :
    y.occurrences p = x.occurrences p := (h.span p).symm

theorem position_same (h : x.positions.Same y.positions) (slot : Nat) :
    y.position slot = x.position slot := by
  have hget : y.positions.valueAt slot = x.positions.valueAt slot :=
    (h.sequence.get slot).symm
  rw [position, position, hget]

theorem toBytes_same (h : x.positions.Same y.positions) :
    y.toBytes = x.toBytes := by
  rw [toBytes, toBytes, Emit.toBytes_of_writes (y.writes_write _),
    Emit.toBytes_of_writes (x.writes_write _), encode_congr h]

end PredicateIndex

theorem Tree.toBytes_same {t u : Tree} (h : t.Same u) :
    u.toBytes = t.toBytes := by
  rw [toBytes, toBytes, Emit.toBytes_of_writes (u.writes_write _),
    Emit.toBytes_of_writes (t.writes_write _), h.encode]

namespace Store

/-- Two stores hold the same, and whatever was asked of either before, they
answer alike. -/
structure Alike (s s' : Store) : Prop where
  order : s'.tree.order = s.tree.order
  maxMiddle : s'.tree.maxMiddle = s.tree.maxMiddle
  maxMinor : s'.tree.maxMinor = s.tree.maxMinor
  size : s'.tree.size = s.tree.size
  majors : s'.tree.majors = s.tree.majors
  middles : s'.tree.middles.toList = s.tree.middles.toList
  minors : s'.tree.minors.toList = s.tree.minors.toList
  answers : ∀ calls calls', Own s.tree calls → Own s'.tree calls' → ∀ pattern,
    ((s'.afterAll calls').search pattern).drain =
      ((s.afterAll calls).search pattern).drain
  toBytes : s'.tree.toBytes = s.tree.toBytes

variable {s s' : Store}

/-- Through any run a store answers as it does without an index. -/
theorem drain_search_afterAll (h : s.Made) {calls : List Call}
    (hcalls : Own s.tree calls) (pattern : Triple) :
    ((s.afterAll calls).search pattern).drain =
      (s.bare.search pattern).drain := by
  rw [← bare_afterAll s calls]
  exact drain_search_bare (by rw [tree_afterAll]; exact h.consistent)
    (sound_afterAll h.sound hcalls.lists) pattern

/-- Without an index, stores with the same trees answer alike. -/
theorem drain_bare_same (h : s.tree.Consistent) (hsame : s.tree.Same s'.tree)
    (pattern : Triple) :
    (s'.bare.search pattern).drain = (s.bare.search pattern).drain := by
  show (Cursor.plan s'.tree (s'.tree.order.toCoords pattern) none).drain =
    (Cursor.plan s.tree (s.tree.order.toCoords pattern) none).drain
  rw [← hsame.order]
  exact (Cursor.drain_plan_same hsame h).symm

theorem alike_of_same (h : s.Made) (h' : s'.Made)
    (hsame : s.tree.Same s'.tree) : s.Alike s' where
  order := hsame.order.symm
  maxMiddle := hsame.maxMiddle.symm
  maxMinor := hsame.maxMinor.symm
  size := hsame.minors.size.symm
  majors := hsame.middles.keys.symm
  middles := hsame.middles.toList.symm
  minors := hsame.minors.toList.symm
  answers := by
    intro calls calls' hcalls hcalls' pattern
    rw [drain_search_afterAll h hcalls, drain_search_afterAll h' hcalls']
    exact drain_bare_same h.consistent hsame pattern
  toBytes := Tree.toBytes_same hsame

/-- Applying a policy warns of nothing but an index that does not exist. -/
theorem warnings_applyPolicy (s : Store) :
    ∀ w ∈ s.applyPolicy.warnings, ∃ e, w = .indexUnavailable e := by
  have hindex : ∀ w ∈ s.ensureIndex.2, ∃ e, w = .indexUnavailable e := by
    unfold ensureIndex
    split
    · split
      · simp
      · next e _ => simp
    · simp
  unfold applyPolicy
  split
  · exact hindex
  · intro w hw
    cases hw

/-- What was saved is loaded without a checksum warning: as a store that is like
the one saved, and as an index that lists the same and is saved to the same
bytes. -/
theorem load_write (h : s.Made) (x : PredicateIndex) (kind : Checksum)
    (config : Config) :
    (∃ s', (ofBytes config (s.tree.write kind).toBytes).result = .ok s' ∧
      (∀ part, .checksumMismatch part ∉
        (ofBytes config (s.tree.write kind).toBytes).warnings) ∧
      s.Alike s') ∧
    ∃ y, PredicateIndex.ofBacking config
      (.ofBytes (x.write kind).toBytes) = .ok y ∧
      (∀ p, y.occurrences p = x.occurrences p) ∧
      (∀ slot, y.position slot = x.position slot) ∧
      y.toBytes = x.toBytes := by
  constructor
  · obtain ⟨u, hsame, hread⟩ := Tree.ofBacking_write h.consistent kind config
      (.ofBytes (s.tree.write kind).toBytes) rfl
    obtain ⟨s', happly, htree⟩ :=
      exists_applyPolicy (ofTree u config.indexPolicy)
    have hload : ofBytes config (s.tree.write kind).toBytes =
        (ofTree u config.indexPolicy).applyPolicy := by
      rw [ofBytes, ofBacking, hread]
      rfl
    have hresult : (ofBytes config (s.tree.write kind).toBytes).result =
        .ok s' := hload ▸ happly
    refine ⟨s', hresult, fun part hpart => ?_,
      alike_of_same h (.loaded _ _ hresult) ?_⟩
    · obtain ⟨e, he⟩ := warnings_applyPolicy _ _ (hload ▸ hpart)
      cases he
    · rw [htree]
      exact hsame
  · obtain ⟨y, hsame, hread⟩ :=
      x.ofBacking_write kind config (.ofBytes (x.write kind).toBytes) rfl
    exact ⟨y, hread, PredicateIndex.occurrences_same hsame,
      PredicateIndex.position_same hsame, PredicateIndex.toBytes_same hsame⟩

theorem load_write_mapped : ∃ s x s',
    (build .standard [⟨1, 1, 1⟩, ⟨2, 1, 2⟩]).result = .ok s ∧
    PredicateIndex.build s.tree = .ok x ∧
    (ofBytes ⟨.ops, .mapped, .eager, .crc32, false⟩
      (s.tree.write .crc8).toBytes).result = .ok s' ∧
    s.Alike s' ∧
    ∃ y, PredicateIndex.ofBacking ⟨.ops, .mapped, .eager, .crc32, false⟩
      (.ofBytes (x.write .crc8).toBytes) = .ok y ∧
      ∀ p, y.occurrences p = x.occurrences p := by
  have heval : ((build .standard [⟨1, 1, 1⟩, ⟨2, 1, 2⟩]).result >>= fun s =>
      PredicateIndex.build s.tree >>= fun x => .ok x.size).toOption =
        some 2 := by decide +kernel
  obtain ⟨s, hs, hindex⟩ := bind_eq_ok.mp (toOption_eq_some.mp heval)
  obtain ⟨x, hx, -⟩ := bind_eq_ok.mp hindex
  obtain ⟨⟨s', hload, -, halike⟩, y, hread, hoccurrences, -⟩ :=
    load_write (.built _ _ hs) x .crc8 ⟨.ops, .mapped, .eager, .crc32, false⟩
  exact ⟨s, x, s', hs, hx, hload, halike, y, hread, hoccurrences⟩

end Store

end TripleStore
