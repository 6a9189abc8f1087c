import Mathlib.Data.List.Find
import TripleStore.Proofs.Section.Modes
import TripleStore.Proofs.Store.RoundTrip

/-!
# Loading in either mode

A store or an index that keeps its words in the backing cannot be told from one
that copied them, wherever the backing is: the same bytes are refused for the
same error, and what is accepted answers everything alike and is saved alike
(`ofBacking_agrees`).
-/

namespace TripleStore

/-! ## What can be asked -/

/-- Two stores answer everything alike and are saved alike. -/
structure Store.Interchangeable (s s' : Store) : Prop where
  order : s.tree.order = s'.tree.order
  size : s.tree.size = s'.tree.size
  majors : s.tree.majors = s'.tree.majors
  maxMiddle : s.tree.maxMiddle = s'.tree.maxMiddle
  maxMinor : s.tree.maxMinor = s'.tree.maxMinor
  middles : (s.tree.middles == s'.tree.middles) = true
  minors : (s.tree.minors == s'.tree.minors) = true
  tripleAt : ∀ i, s.tree.tripleAt i = s'.tree.tripleAt i
  search : ∀ pattern, (s.search pattern).drain = (s'.search pattern).drain
  write : ∀ kind, s.tree.write kind = s'.tree.write kind

/-- Two indexes answer everything alike and are saved alike. -/
structure PredicateIndex.Interchangeable (x y : PredicateIndex) : Prop where
  positions : (x == y) = true
  predicates : x.predicates = y.predicates
  size : x.size = y.size
  occurrences : ∀ p, x.occurrences p = y.occurrences p
  position : ∀ slot, x.position slot = y.position slot
  write : ∀ kind, x.write kind = y.write kind

theorem PredicateIndex.interchangeable_of_copy {x y : PredicateIndex}
    (h : x.positions.Copy y.positions) : x.Interchangeable y where
  positions := h.beq
  predicates := h.same.keys
  size := h.same.size
  occurrences := h.same.span
  position := fun slot => (position_same h.same slot).symm
  write := write_congr h.same

theorem Tree.Same.tripleAt {t u : Tree} (h : t.Same u)
    (ht : t.Consistent) (i : Nat) :
    t.tripleAt i = u.tripleAt i := by
  have hsize : t.size = u.size := h.minors.size
  rw [Tree.tripleAt, Tree.tripleAt, ← hsize, ← h.order]
  by_cases hi : i < t.size
  · rw [if_pos hi, if_pos hi, h.coords ht hi]
  · rw [if_neg hi, if_neg hi]

theorem Store.interchangeable_of_copy {s s' : Store} (h : s.Made) (h' : s'.Made)
    (hcopy : s.tree.Copy s'.tree) : s.Interchangeable s' where
  order := hcopy.order
  size := hcopy.same.minors.size
  majors := hcopy.same.middles.keys
  maxMiddle := hcopy.maxMiddle
  maxMinor := hcopy.maxMinor
  middles := hcopy.middles.beq
  minors := hcopy.minors.beq
  tripleAt := hcopy.same.tripleAt h.consistent
  search := by
    intro pattern
    rw [drain_search_bare h.consistent h.sound,
      drain_search_bare h'.consistent h'.sound]
    exact (drain_bare_same h.consistent hcopy.same pattern).symm
  write := hcopy.same.write

/-! ## The index that comes with a policy -/

namespace PredicateIndex

variable {t u : Tree}

theorem isForeign_same (h : t.Same u) (n : Nat) {i : Nat}
    (hi : i < t.middles.size) :
    isForeign t n i = isForeign u n i := by
  rw [isForeign, isForeign, h.middles.value hi]

theorem groups_same (h : t.Same u) (n : Nat) : groups t n = groups u n := by
  rw [groups, groups, ← h.middles.size]
  apply List.foldr_ext
  intro i hi _
  rw [h.middles.value (List.mem_range.mp hi)]

/-- The same trees have the same index, or none for the same reason. -/
theorem build_same (h : t.Same u) : build t = build u := by
  have hfind :
      (List.range t.middles.size).find? (isForeign t t.maxMiddle.toNat) =
      (List.range t.middles.size).find? (isForeign u t.maxMiddle.toNat) :=
    List.find?_congr fun i hi => isForeign_same h _ (List.mem_range.mp hi)
  rw [build, build, ← h.maxMiddle, ← h.middles.size, groups_same h, hfind]
  dsimp only
  split
  · rfl
  · split
    · next i hi =>
        rw [h.middles.value (List.mem_range.mp (List.mem_of_find?_eq_some hi))]
    · rfl

end PredicateIndex

namespace Store

/-- A policy does the same to stores of copies, and warns of the same. -/
theorem applyPolicy_agrees {t u : Tree} (h : t.Copy u) (policy : IndexPolicy) :
    (ofTree t policy).applyPolicy.Agrees (fun s s' => s.tree.Copy s'.tree)
      (ofTree u policy).applyPolicy := by
  by_cases hpolicy : policy = .eager
  · have hwarnings :
        (ofTree t policy).ensureIndex.2 = (ofTree u policy).ensureIndex.2 := by
      rw [ensureIndex, ensureIndex]
      dsimp only [ofTree]
      rw [PredicateIndex.build_same h.same]
      cases PredicateIndex.build u <;> rfl
    have hok : ∀ v, (ofTree v policy).applyPolicy =
        ⟨(ofTree v policy).ensureIndex.2,
          .ok (ofTree v policy).ensureIndex.1⟩ := fun v => if_pos hpolicy
    rw [hok, hok, hwarnings]
    apply Outcome.agrees_ok
    rw [tree_ensureIndex, tree_ensureIndex]
    exact h
  · have hok : ∀ v, (ofTree v policy).applyPolicy = .ok (ofTree v policy) :=
      fun v => if_neg hpolicy
    rw [hok, hok]
    apply Outcome.agrees_ok
    exact h

variable (config : Config) (mode mode' : LoadMode) (backing : Backing)
  (residence : Residence)

theorem ofBacking_copy : (ofBacking (config.inMode mode) backing).Agrees
    (fun s s' => s.tree.Copy s'.tree)
    (ofBacking (config.inMode mode') { backing with residence }) := by
  have htree : (Tree.ofBacking (config.inMode mode) backing).Agrees Tree.Copy
      (Tree.ofBacking (config.inMode mode') { backing with residence }) :=
    Scan.agrees_run (Scan.twins_whole .triples
      (Tree.twins_read config mode mode'))
      (.ofBacking backing) residence
  exact htree.bind fun t u hcopy => applyPolicy_agrees hcopy config.indexPolicy

/-- Of the same bytes, on the heap or in a map of a file, the two modes make
stores that cannot be told apart, with the same warnings, or they refuse them
for the same error; and so it is with indexes. -/
theorem ofBacking_agrees :
    (ofBacking (config.inMode mode) backing).Agrees Interchangeable
      (ofBacking (config.inMode mode') { backing with residence }) ∧
    (PredicateIndex.ofBacking (config.inMode mode) backing).Agrees
      PredicateIndex.Interchangeable
      (PredicateIndex.ofBacking (config.inMode mode')
        { backing with residence }) := by
  constructor
  · refine (ofBacking_copy config mode mode' backing residence).imp
      fun s s' hs hs' hcopy => ?_
    exact interchangeable_of_copy (.loaded _ _ hs) (.loaded _ _ hs') hcopy
  · exact (Scan.agrees_run (PredicateIndex.twins_readWhole config mode mode')
      (.ofBacking backing)
      residence).imp fun x y _ _ hcopy =>
        PredicateIndex.interchangeable_of_copy hcopy

/-- A store that was saved is loaded from a map of a file into words that stay
there, and from the heap into words of its own. -/
theorem ofBacking_agrees_mapped :
    ∃ s t u, (build .standard [⟨1, 1, 1⟩, ⟨2, 1, 2⟩]).result = .ok s ∧
    (ofBacking (Config.standard.inMode .mapped)
      ⟨s.tree.toBytes.toArray, .mapped⟩).result = .ok t ∧
    t.tree.size = 2 ∧ t.tree.minors.sequence.isMapped = true ∧
    (ofBacking (Config.standard.inMode .loaded)
      (.ofBytes s.tree.toBytes)).result = .ok u ∧
    t.Interchangeable u := by
  have heval : (do
      let s ← (build .standard [⟨1, 1, 1⟩, ⟨2, 1, 2⟩]).result
      let t ← (ofBacking (Config.standard.inMode .mapped)
        ⟨s.tree.toBytes.toArray, .mapped⟩).result
      return (t.tree.size, t.tree.minors.sequence.isMapped)).toOption =
        some (2, true) := by
    decide +kernel
  obtain ⟨s, hs, heval⟩ := bind_eq_ok.mp (toOption_eq_some.mp heval)
  obtain ⟨t, ht, heval⟩ := bind_eq_ok.mp heval
  obtain ⟨hsize, hmapped⟩ := Prod.mk.inj (Except.ok.inj heval)
  obtain ⟨u, hu, hsame⟩ := (ofBacking_agrees .standard .mapped .loaded
    ⟨s.tree.toBytes.toArray, .mapped⟩ .heap).1.value t ht
  exact ⟨s, t, u, hs, ht, hsize, hmapped, hu, hsame⟩

end Store

end TripleStore
