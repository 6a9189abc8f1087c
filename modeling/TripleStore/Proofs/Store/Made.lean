import TripleStore.PredicateIndex.Section
import TripleStore.Proofs.Store.Loaded

/-!
# Where stores and indexes come from

A store is built from triples or loaded from bytes. Either way its tree is
consistent and its index, if it has one, is its tree's; nothing is known of the
order of its ids. An index is built for a tree or read from bytes, and of one
that was read nothing is known at all.
-/

namespace TripleStore

/-- The index was built for some tree or read from some bytes, wherever they are
kept. -/
inductive PredicateIndex.Made (x : PredicateIndex) : Prop where
  | built (t : Tree) (h : build t = .ok x)
  | read (config : Config) (backing : Backing)
    (h : (ofBacking config backing).result = .ok x)

namespace Store

/-- The store comes from triples or from bytes, wherever they are kept, under
some configuration. -/
inductive Made (s : Store) : Prop where
  | built (config : Config) (triples : List Triple)
    (h : (build config triples).result = .ok s)
  | loaded (config : Config) (backing : Backing)
    (h : (ofBacking config backing).result = .ok s)

variable {s : Store}

/-- A store has the tree that was built or read. -/
theorem Made.of_tree {P : Tree → Prop} (h : s.Made)
    (hbuild : ∀ order triples t, Tree.build order triples = .ok t → P t)
    (hread : ∀ config backing t,
      (Tree.ofBacking config backing).result = .ok t → P t) :
    P s.tree := by
  cases h with
  | built config triples h => exact hbuild _ _ _ (build_eq_ok h).1
  | loaded config backing h =>
      obtain ⟨t, hread', hpolicy⟩ := Outcome.result_bind_eq_ok.mp h
      rcases applyPolicy_eq_ok hpolicy with rfl | rfl
      · exact hread _ _ _ hread'
      · rw [tree_ensureIndex]
        exact hread _ _ _ hread'

theorem Made.consistent (h : s.Made) : s.tree.Consistent :=
  h.of_tree (fun _ _ _ => Tree.consistent_of_build) fun _ _ _ =>
    Tree.consistent_of_ofBacking

/-- An index that is there from the beginning was built for the tree. -/
theorem Made.keeps {P : PredicateIndex → Tree → Prop}
    (hbuild : ∀ t x, PredicateIndex.build t = .ok x → P x t) (h : s.Made) :
    s.Keeps P := by
  cases h with
  | built config triples h => exact (build_eq_ok h).2.2 hbuild
  | loaded config backing h =>
      obtain ⟨t, -, hpolicy⟩ := Outcome.result_bind_eq_ok.mp h
      have hkeeps : (ofTree t config.indexPolicy).Keeps P :=
        keeps_of_index?_eq_none rfl
      rcases applyPolicy_eq_ok hpolicy with rfl | rfl
      · exact hkeeps
      · exact keeps_ensureIndex hbuild hkeeps

theorem Made.sound (h : s.Made) : s.Sound :=
  h.keeps fun _ _ => PredicateIndex.lists_of_build

end Store

end TripleStore
