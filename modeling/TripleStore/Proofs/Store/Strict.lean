import TripleStore.Proofs.Bytes.Enforces
import TripleStore.Proofs.Store.RoundTrip

/-!
# Strict and lenient loading

Every section is read in the same way under both settings until a check does not
match, so a store or an index is loaded strictly as it is loaded leniently, or
not at all (`ofBacking_enforced`).
-/

namespace TripleStore

open Scan

/-- The same choices, with checks that only warn. -/
def Config.lenient (config : Config) : Config := { config with strict := false }

/-- The same choices, with checks that end the loading. -/
def Config.strictly (config : Config) : Config := { config with strict := true }

variable (config : Config)

theorem Section.Header.enforces_read : Enforces (read false) (read true) := by
  refine enforces_bind (enforces_restart _) fun _ =>
    enforces_bind (enforces_of_plain (plain_readExact _)) fun bytes => ?_
  split
  · exact enforces_throw _
  · exact enforces_bind (enforces_of_plain plain_readKind) fun _ =>
      enforces_bind (enforces_of_plain (Vbyte.plain_read 64)) fun count =>
      enforces_bind (enforces_of_plain (plain_readProperties .empty count)) fun _ =>
      enforces_bind (enforces_closePart .header) fun _ => enforces_pure _

theorem Bitmap.enforces_read :
    Enforces (read config.lenient) (read config.strictly) := by
  refine enforces_bind Section.Header.enforces_read fun header =>
    enforces_bind (enforces_lift _) fun header =>
    enforces_bind (enforces_lift _) fun kind =>
    enforces_bind (enforces_restart kind) fun _ =>
    enforces_bind (enforces_of_plain (plain_readExact 8)) fun bytes => ?_
  dsimp only
  split
  · exact enforces_throw _
  · exact enforces_bind (enforces_words config.loadMode _) fun words =>
      enforces_bind (enforces_closePart .bitmap) fun _ => enforces_pure _

theorem Sequence.enforces_read :
    Enforces (read config.lenient) (read config.strictly) := by
  refine enforces_bind Section.Header.enforces_read fun header =>
    enforces_bind (enforces_lift _) fun header =>
    enforces_bind (enforces_lift _) fun kind =>
    enforces_bind (enforces_restart kind) fun _ =>
    enforces_bind (enforces_of_plain plain_byte) fun byte => ?_
  dsimp only
  split
  · refine enforces_bind (enforces_of_plain (Vbyte.plain_read 64)) fun size => ?_
    split
    · exact enforces_throw _
    · exact enforces_bind (enforces_words config.loadMode _) fun words =>
        enforces_bind (enforces_closePart .sequence) fun _ => enforces_pure _
  · exact enforces_throw _

theorem Adjacency.enforces_read :
    Enforces (read config.lenient) (read config.strictly) := by
  refine enforces_bind (Bitmap.enforces_read config) fun bitmap =>
    enforces_bind (Sequence.enforces_read config) fun sequence => ?_
  split
  · exact enforces_pure _
  · exact enforces_throw _

theorem Tree.enforces_read :
    Enforces (read config.lenient) (read config.strictly) := by
  refine enforces_bind Section.Header.enforces_read fun header =>
    enforces_bind (enforces_lift _) fun header =>
    enforces_bind (enforces_lift _) fun order =>
    enforces_bind (enforces_lift _) fun size =>
    enforces_bind (enforces_lift _) fun maxMiddle =>
    enforces_bind (enforces_lift _) fun maxMinor =>
    enforces_bind (Adjacency.enforces_read config) fun middles =>
    enforces_bind (Adjacency.enforces_read config) fun minors => ?_
  dsimp only
  split
  · exact enforces_throw _
  · exact enforces_pure _

theorem PredicateIndex.enforces_readWhole :
    Enforces (readWhole config.lenient) (readWhole config.strictly) := by
  refine enforces_bind Section.Header.enforces_read fun header =>
    enforces_bind (enforces_lift _) fun header =>
    enforces_bind (enforces_lift _) fun predicates =>
    enforces_bind (enforces_lift _) fun entries =>
    enforces_bind (enforces_whole .predicateIndex
      (Adjacency.enforces_read config)) fun positions => ?_
  split
  · exact enforces_pure _
  · exact enforces_throw _

/-- An index that does not exist is no check that failed. -/
theorem Store.mismatches_applyPolicy (s : Store) :
    s.applyPolicy.mismatches = [] := by
  apply List.filterMap_eq_nil_iff.mpr
  intro w hw
  obtain ⟨e, rfl⟩ := s.warnings_applyPolicy w hw
  rfl

/-- Whatever the bytes are and wherever they are kept: if no check fails, a
store and an index are loaded strictly just as they are leniently, with the same
errors and warnings. If a check fails, strict loading fails for the first one
that lenient loading warns of, and for nothing else that may be wrong. -/
theorem Store.ofBacking_enforced (backing : Backing) :
    (ofBacking config.lenient backing).Enforced
      (ofBacking config.strictly backing) ∧
      (PredicateIndex.ofBacking config.lenient backing).Enforced
        (PredicateIndex.ofBacking config.strictly backing) := by
  constructor
  · have htree : (Tree.ofBacking config.lenient backing).Enforced
        (Tree.ofBacking config.strictly backing) :=
      enforced_run (enforces_whole .triples (Tree.enforces_read config))
        (.ofBacking backing)
    exact htree.bind fun t =>
      (ofTree t config.indexPolicy).mismatches_applyPolicy
  · exact enforced_run (PredicateIndex.enforces_readWhole config)
      (.ofBacking backing)

/-- One bit is flipped in the check of the first bitmap of a store, and one in
the last check of an index: with a warning each is loaded, and strictly none. -/
theorem Store.ofBacking_enforced_flipped : ∃ s x t y,
    (build .standard [⟨1, 1, 1⟩]).result = .ok s ∧
    PredicateIndex.build s.tree = .ok x ∧
    let storeBytes := s.tree.toBytes.modify 87 (· ^^^ 1)
    let indexBytes := x.toBytes.modify 105 (· ^^^ 1)
    ((ofBacking Config.standard.lenient (.ofBytes storeBytes)).result = .ok t ∧
      (ofBacking Config.standard.lenient (.ofBytes storeBytes)).mismatches =
        [.bitmap] ∧
      ofBacking Config.standard.strictly (.ofBytes storeBytes) =
        .fail (.checksumMismatch .bitmap)) ∧
    ((PredicateIndex.ofBacking Config.standard.lenient
      (.ofBytes indexBytes)).result = .ok y ∧
      (PredicateIndex.ofBacking Config.standard.lenient
        (.ofBytes indexBytes)).mismatches =
        [.sequence] ∧
      PredicateIndex.ofBacking Config.standard.strictly (.ofBytes indexBytes) =
        .fail (.checksumMismatch .sequence)) := by
  have heval : (do
      let s ← (build .standard [⟨1, 1, 1⟩]).result
      let x ← PredicateIndex.build s.tree
      let store := ofBacking Config.standard.lenient
        (.ofBytes (s.tree.toBytes.modify 87 (· ^^^ 1)))
      let index := PredicateIndex.ofBacking Config.standard.lenient
        (.ofBytes (x.toBytes.modify 105 (· ^^^ 1)))
      let _ ← store.result
      let _ ← index.result
      return (store.mismatches, index.mismatches)).toOption =
      some ([.bitmap], [.sequence]) := by decide +kernel
  obtain ⟨s, hs, heval⟩ := bind_eq_ok.mp (toOption_eq_some.mp heval)
  obtain ⟨x, hx, heval⟩ := bind_eq_ok.mp heval
  obtain ⟨t, ht, heval⟩ := bind_eq_ok.mp heval
  obtain ⟨y, hy, heval⟩ := bind_eq_ok.mp heval
  obtain ⟨hstore, hindex⟩ := Prod.mk.inj (Except.ok.inj heval)
  exact ⟨s, x, t, y, hs, hx,
    ⟨ht, hstore, (ofBacking_enforced .standard _).1.caught _ _ hstore⟩, hy,
    hindex, (ofBacking_enforced .standard _).2.caught _ _ hindex⟩

end TripleStore
