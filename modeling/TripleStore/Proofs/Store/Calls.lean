import TripleStore.Store.Basic
import TripleStore.Proofs.Cursor.Completeness

/-!
# Runs of calls

Calls on a store never touch its tree or its policy; they fill the place for the
index. If no index comes in that does not list the tree, then none is ever there
that does not (`sound_afterAll`), and searching finds what filtering finds
(`drain_search`).
-/

namespace TripleStore.Store

/-- What can be asked of a store once it is there. -/
inductive Call where
  | search (pattern : Triple)
  | ensureIndex
  | attach (index : PredicateIndex)

/-- The store after a call. An index that is refused leaves it as it was. -/
def after (s : Store) : Call → Store
  | .search pattern => (s.prepare pattern).1
  | .ensureIndex => s.ensureIndex.1
  | .attach index =>
    match s.attach index with
    | .ok s' => s'
    | .error _ => s

def afterAll (s : Store) (calls : List Call) : Store := calls.foldl after s

variable {s : Store}

theorem tree_ensureIndex (s : Store) : s.ensureIndex.1.tree = s.tree := by
  unfold ensureIndex
  split
  · split <;> rfl
  · rfl

theorem policy_ensureIndex (s : Store) : s.ensureIndex.1.policy = s.policy := by
  unfold ensureIndex
  split
  · split <;> rfl
  · rfl

theorem tree_prepare (s : Store) (pattern : Triple) :
    (s.prepare pattern).1.tree = s.tree := by
  unfold prepare
  split
  · exact tree_ensureIndex s
  · rfl

/-- An index is taken in only where there was none, and the rest stays. -/
theorem attach_eq_ok {s' : Store} {x : PredicateIndex}
    (h : s.attach x = .ok s') :
    x.conflict? s.tree = none ∧ s.cell = .unset ∧
    s' = { s with cell := .ready x } := by
  unfold attach at h
  split at h
  · cases h
  next hconflict =>
  split at h
  · next hcell =>
      cases h
      exact ⟨hconflict, hcell, rfl⟩
  · cases h

theorem attach_of_unset {x : PredicateIndex} (h : x.conflict? s.tree = none)
    (hcell : s.cell = .unset) :
    s.attach x = .ok { s with cell := .ready x } := by
  rw [attach, h]
  dsimp only
  rw [hcell]

theorem attach_of_conflict {x : PredicateIndex} {fault : ArgumentFault}
    (h : x.conflict? s.tree = some fault) :
    s.attach x = .error (.invalidArgument fault) := by
  rw [attach, h]

theorem tree_after (s : Store) (call : Call) :
    (s.after call).tree = s.tree := by
  cases call with
  | search pattern => exact tree_prepare s pattern
  | ensureIndex => exact tree_ensureIndex s
  | attach x =>
      rw [after]
      split
      · next hattach => rw [(attach_eq_ok hattach).2.2]
      · rfl

theorem tree_afterAll (s : Store) (calls : List Call) :
    (s.afterAll calls).tree = s.tree := by
  induction calls generalizing s with
  | nil => rfl
  | cons call calls ih => exact (ih _).trans (tree_after s call)

/-! ## The index of a store -/

section Keeps

variable {P : PredicateIndex → Tree → Prop}

/-- An index that is there has a property with respect to the tree. -/
def Keeps (P : PredicateIndex → Tree → Prop) (s : Store) : Prop :=
  ∀ x ∈ s.index?, P x s.tree

theorem keeps_of_index?_eq_none (h : s.index? = none) : s.Keeps P := by
  intro x hx
  rw [h] at hx
  cases hx

variable (hbuild : ∀ t x, PredicateIndex.build t = .ok x → P x t)
include hbuild

theorem keeps_ensureIndex (h : s.Keeps P) : s.ensureIndex.1.Keeps P := by
  unfold ensureIndex
  split
  · split
    · next hindex =>
        intro x hx
        cases hx
        exact hbuild _ _ hindex
    · exact keeps_of_index?_eq_none rfl
  · exact h

theorem keeps_prepare (h : s.Keeps P) (pattern : Triple) :
    (s.prepare pattern).1.Keeps P := by
  unfold prepare
  split
  · exact keeps_ensureIndex hbuild h
  · exact h

theorem keeps_after (h : s.Keeps P) {call : Call}
    (hcall : ∀ x, call = .attach x → x.conflict? s.tree = none → P x s.tree) :
    (s.after call).Keeps P := by
  cases call with
  | search pattern => exact keeps_prepare hbuild h pattern
  | ensureIndex => exact keeps_ensureIndex hbuild h
  | attach x =>
      rw [after]
      split
      · next hattach =>
          obtain ⟨hconflict, -, rfl⟩ := attach_eq_ok hattach
          intro y hy
          cases hy
          exact hcall x rfl hconflict
      · exact h

/-- What holds of every index that is built or comes in holds through a whole
run of calls. -/
theorem keeps_afterAll (h : s.Keeps P) {calls : List Call}
    (hcalls : ∀ x, .attach x ∈ calls → x.conflict? s.tree = none → P x s.tree) :
    (s.afterAll calls).Keeps P := by
  induction calls generalizing s with
  | nil => exact h
  | cons call calls ih =>
      apply ih (keeps_after hbuild h fun x hx =>
        hcalls x (hx ▸ List.mem_cons_self))
      intro x hx
      rw [tree_after]
      exact hcalls x (List.mem_cons_of_mem _ hx)

end Keeps

/-- An index that is there lists the tree. -/
def Sound (s : Store) : Prop := s.Keeps PredicateIndex.Lists

theorem sound_of_index?_eq_none (h : s.index? = none) : s.Sound :=
  keeps_of_index?_eq_none h

theorem sound_ensureIndex (h : s.Sound) : s.ensureIndex.1.Sound :=
  keeps_ensureIndex (fun _ _ => PredicateIndex.lists_of_build) h

theorem sound_prepare (h : s.Sound) (pattern : Triple) :
    (s.prepare pattern).1.Sound :=
  keeps_prepare (fun _ _ => PredicateIndex.lists_of_build) h pattern

theorem sound_afterAll (h : s.Sound) {calls : List Call}
    (hcalls : ∀ x, .attach x ∈ calls → x.Lists s.tree) :
    (s.afterAll calls).Sound :=
  keeps_afterAll (fun _ _ => PredicateIndex.lists_of_build) h fun x hx _ =>
    hcalls x hx

/-! ## Searching -/

/-- A sound store whose ids are found where they stand finds what filtering
finds. -/
theorem drain_search (h : s.tree.Consistent) (hfind : s.tree.Findable)
    (hsound : s.Sound) (pattern : Triple) :
    (s.search pattern).drain = s.tree.entries.filter fun e =>
      pattern.covers e.1 := by
  have hindex := sound_prepare hsound pattern
  rw [Sound, Keeps, tree_prepare] at hindex
  exact Cursor.drain_plan_eq h hfind hindex pattern

theorem find_eq_filter (h : s.tree.Consistent) (hfind : s.tree.Findable)
    (hsound : s.Sound) (pattern : Triple) :
    s.find pattern = s.tree.toList.filter pattern.covers := by
  rw [find, drain_search h hfind hsound, ← Tree.map_fst_entries,
    List.filter_map]
  rfl

/-- Whatever its index, a store gives all its triples to the pattern that covers
all. -/
theorem drain_search_any (h : s.tree.Consistent) :
    (s.search .any).drain = s.tree.entries := by
  have hcoords : s.tree.order.toCoords .any = .any := by
    cases s.tree.order <;> rfl
  rw [search, hcoords, Cursor.drain_plan_any h]

theorem find_any (h : s.tree.Consistent) : s.find .any = s.tree.toList := by
  rw [find, drain_search_any h, Tree.map_fst_entries]

/-- A triple is contained if it names three ids and is one of those that are
found. -/
theorem contains_iff (s : Store) (t : Triple) :
    s.contains t = true ↔ t.Concrete ∧ (s.search t).drain ≠ [] := by
  rw [contains, Bool.and_eq_true, Bool.not_eq_true', Order.hasZero_toCoords,
    Cursor.isSome_next, Cursor.drain_eq_pending, Bool.not_eq_true',
    ← Bool.not_eq_true, List.isEmpty_iff]

end TripleStore.Store
