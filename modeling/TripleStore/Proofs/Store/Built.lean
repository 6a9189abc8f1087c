import TripleStore.Proofs.Outcome
import TripleStore.Proofs.Store.Calls

/-!
# Answers of a store that was built

A store that was built from a list of triples answers every pattern with the
triples of the list that the pattern covers, in their order, as often as they
come and with their places in it (`search_complete`). Which index the store has
by then makes no difference.
-/

namespace TripleStore

/-- A pattern that binds every id covers just the triple that it is. -/
theorem Triple.Concrete.covers_iff {t : Triple} (h : t.Concrete) (u : Triple) :
    t.covers u = true ↔ t = u := by
  obtain ⟨s, p, o⟩ := t
  obtain ⟨s', p', o'⟩ := u
  obtain ⟨hs, hp, ho⟩ := h
  dsimp only at hs hp ho
  simp [Triple.covers, hs, hp, ho, and_assoc]

namespace Store

variable {config : Config} {triples : List Triple} {s : Store}

/-- What a policy does to a store is at most to fill the place for the index. -/
theorem applyPolicy_eq_ok {s' : Store} (h : s.applyPolicy.result = .ok s') :
    s' = s ∨ s' = s.ensureIndex.1 := by
  unfold applyPolicy at h
  split at h
  · cases h
    exact .inr rfl
  · cases h
    exact .inl rfl

/-- A policy is always applied. -/
theorem exists_applyPolicy (s : Store) :
    ∃ s', s.applyPolicy.result = .ok s' ∧ s'.tree = s.tree := by
  unfold applyPolicy
  split
  · exact ⟨_, rfl, tree_ensureIndex s⟩
  · exact ⟨_, rfl, rfl⟩

theorem sound_ofTree (tree : Tree) (policy : IndexPolicy) :
    (ofTree tree policy).Sound :=
  sound_of_index?_eq_none rfl

/-- A store that was built has the tree of its triples, and any index that it
has was built. -/
theorem build_eq_ok (h : (build config triples).result = .ok s) :
    Tree.build config.order triples = .ok s.tree ∧
    s.policy = config.indexPolicy ∧
      ∀ {P}, (∀ t x, PredicateIndex.build t = .ok x → P x t) → s.Keeps P := by
  obtain ⟨t, hbuild, hpolicy⟩ := Outcome.result_bind_eq_ok.mp h
  rcases applyPolicy_eq_ok hpolicy with rfl | rfl
  · exact ⟨hbuild, rfl, fun _ => keeps_of_index?_eq_none rfl⟩
  · exact ⟨by rw [tree_ensureIndex]; exact hbuild, policy_ensureIndex _,
      fun hindex => keeps_ensureIndex hindex (keeps_of_index?_eq_none rfl)⟩

/-- The entries of a tree are the triples that it holds, with their places. -/
theorem entries_of_holds {t : Tree} (h : t.Holds triples) :
    t.entries = triples.zipIdx.map fun e => (e.1, some e.2) := by
  apply List.ext_getElem
  · simp [Tree.entries, h.size]
  · intro i hi hi'
    have hlt : i < triples.length := by simpa [Tree.entries, h.size] using hi
    simp [Tree.entries, Tree.entry, h.coords i hlt]

/-- At any time, searching gives the triples that the pattern covers, in the
order of the list and as often as they come in it, each with its place; and a
triple is contained if it names three ids and is in the list. -/
theorem search_complete (h : (build config triples).result = .ok s)
    {calls : List Call} (hcalls : ∀ x, .attach x ∈ calls → x.Lists s.tree) :
    (∀ pattern, ((s.afterAll calls).search pattern).drain =
      (triples.zipIdx.filter fun e => pattern.covers e.1).map
        fun e => (e.1, some e.2)) ∧
    ∀ t, (s.afterAll calls).contains t = true ↔ t.Concrete ∧ t ∈ triples := by
  obtain ⟨hbuild, -, hkeeps⟩ := build_eq_ok h
  have hsound : s.Sound := hkeeps fun _ _ => PredicateIndex.lists_of_build
  obtain ⟨-, hholds⟩ := Tree.holds_of_build hbuild
  have hsearch : ∀ pattern, ((s.afterAll calls).search pattern).drain =
      (triples.zipIdx.filter fun e => pattern.covers e.1).map fun e =>
        (e.1, some e.2) := by
    intro pattern
    have hconsistent := Tree.consistent_of_build hbuild
    have hfindable := (Tree.ascending_of_build hbuild).findable
    rw [← tree_afterAll s calls] at hconsistent hfindable hholds
    rw [drain_search hconsistent hfindable (sound_afterAll hsound hcalls),
      entries_of_holds hholds, List.filter_map]
    rfl
  refine ⟨hsearch, fun t => ?_⟩
  rw [contains_iff, hsearch]
  refine and_congr_right fun hconcrete => ?_
  have hcovers := hconcrete.covers_iff
  constructor
  · intro hne
    obtain ⟨e, he⟩ := List.exists_mem_of_ne_nil _ hne
    obtain ⟨⟨u, i⟩, hu, -⟩ := List.mem_map.mp he
    obtain ⟨hmem, hcover⟩ := List.mem_filter.mp hu
    rw [(hcovers u).mp hcover]
    exact (List.mem_zipIdx hmem).2.2 ▸ List.getElem_mem _
  · intro hmem hnil
    obtain ⟨i, hi, hget⟩ := List.mem_iff_getElem.mp hmem
    have hzip : (t, i) ∈ triples.zipIdx :=
      List.mem_zipIdx_iff_getElem?.mpr (by simp [hi, hget])
    have hfilter : (t, i) ∈ triples.zipIdx.filter fun e => t.covers e.1 :=
      List.mem_filter.mpr ⟨hzip, (hcovers t).mpr rfl⟩
    rw [List.map_eq_nil_iff] at hnil
    rw [hnil] at hfilter
    cases hfilter

theorem search_complete_repeated : ∃ s x,
    (build { Config.standard with order := .pos, indexPolicy := .disabled }
      [⟨1, 1, 1⟩, ⟨1, 1, 1⟩, ⟨4, 1, 2⟩, ⟨2, 2, 1⟩]).result = .ok s ∧
    PredicateIndex.build s.tree = .ok x ∧
    ((s.afterAll [.search ⟨0, 0, 1⟩, .attach x]).search ⟨0, 0, 1⟩).drain =
      [(⟨1, 1, 1⟩, some 0), (⟨1, 1, 1⟩, some 1), (⟨2, 2, 1⟩, some 3)] ∧
    (s.afterAll [.search ⟨0, 0, 1⟩, .attach x]).contains ⟨4, 1, 2⟩ = true := by
  have hok :
      ((build { Config.standard with order := .pos, indexPolicy := .disabled }
      [⟨1, 1, 1⟩, ⟨1, 1, 1⟩, ⟨4, 1, 2⟩, ⟨2, 2, 1⟩]).result >>= fun s =>
        PredicateIndex.build s.tree >>= fun x => .ok x.size).toOption =
          some 3 := by decide +kernel
  obtain ⟨s, hbuild, hindex⟩ := bind_eq_ok.mp (toOption_eq_some.mp hok)
  obtain ⟨x, hx, -⟩ := bind_eq_ok.mp hindex
  have hlists : ∀ y, Call.attach y ∈ [Call.search ⟨0, 0, 1⟩, .attach x] →
      y.Lists s.tree := by
    intro y hy
    obtain rfl : y = x := by simpa using hy
    exact PredicateIndex.lists_of_build hx
  obtain ⟨hsearch, hcontains⟩ := search_complete hbuild hlists
  refine ⟨s, x, hbuild, hx, ?_, (hcontains _).mpr (by decide)⟩
  rw [hsearch]
  decide

end Store

end TripleStore
