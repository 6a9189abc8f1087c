import TripleStore.Proofs.Store.Attached
import TripleStore.Proofs.Store.Made

/-!
# Answers along a history

An index that lists a tree leads a cursor past the occurrences of other middle
ids, where nothing is found anyway (`drain_plan_index`). So it makes no
difference to a store's answers when an index is built, whether that succeeds,
and whether one comes in that was built elsewhere (`answers_eq_bare`).
-/

namespace TripleStore

namespace Cursor

variable {t : Tree} {wanted : Coords} {index : Option PredicateIndex}

/-- Occurrences of another middle id have nothing. -/
theorem places_of_middle_ne (hmiddle : wanted.middle ≠ 0) {j : Nat}
    (hne : t.middles.value j ≠ wanted.middle) : places t wanted j = [] := by
  have hadmits : ¬ (start t wanted .scan none .empty).admits j = true := by
    simp [admits, start, hmiddle, hne]
  exact if_neg hadmits

/-- Going through what an index lists gives the places of all occurrences. -/
theorem flatMap_listed {x : PredicateIndex} (hx : x.Lists t)
    (hmiddle : wanted.middle ≠ 0)
    (hle : wanted.middle.toNat ≤ t.maxMiddle.toNat) :
    (x.listed wanted.middle.toNat).flatMap (places t wanted) =
      (List.range t.middles.size).flatMap (places t wanted) := by
  rw [hx _ (toNat_pos hmiddle) hle, Tree.occurrencesOf]
  apply flatMap_filter_of_nil
  intro j _ hj
  rw [decide_eq_true_eq, UInt64.toNat_inj] at hj
  exact places_of_middle_ne hmiddle hj

theorem flatMap_walk_index (hindex : ∀ x ∈ index, x.Lists t) :
    (walk t wanted index).flatMap (places t wanted) =
      (walk t wanted none).flatMap (places t wanted) := by
  cases index with
  | none => rfl
  | some x =>
      unfold walk
      split
      · rfl
      next hreach =>
      split
      · rfl
      split
      · next hmiddle =>
          exact flatMap_listed (hindex x rfl) hmiddle
            (not_outOfReach_iff.mp hreach).2.1
      · rfl

/-- With an index that lists the tree a plan gives what it gives without. -/
theorem drain_plan_index (h : t.Consistent) (hindex : ∀ x ∈ index, x.Lists t) :
    (plan t wanted index).drain = (plan t wanted none).drain := by
  have hnone : ∀ x ∈ (none : Option PredicateIndex), x.Lists t :=
    fun x hx => by cases hx
  rw [drain_plan h (walk_lt_of_lists hindex),
    drain_plan h (walk_lt_of_lists hnone), flatMap_walk_index hindex]

end Cursor

namespace Store

variable {s : Store} {calls : List Call}

/-- What the searches of a run give, each with the store as it is by then. -/
def answers (s : Store) : List Call → List (List (Triple × Option Nat))
  | [] => []
  | .search pattern :: calls =>
    (s.search pattern).drain :: (s.after (.search pattern)).answers calls
  | .ensureIndex :: calls => (s.after .ensureIndex).answers calls
  | .attach x :: calls => (s.after (.attach x)).answers calls

/-- What a run searches for. -/
def patterns (calls : List Call) : List Triple :=
  calls.filterMap fun
    | .search pattern => some pattern
    | _ => none

/-- All indexes that are attached were built for the tree. -/
def Own (t : Tree) (calls : List Call) : Prop :=
  ∀ x, .attach x ∈ calls → PredicateIndex.build t = .ok x

theorem Own.lists {t : Tree} (h : Own t calls) :
    ∀ x, .attach x ∈ calls → x.Lists t :=
  fun x hx => PredicateIndex.lists_of_build (h x hx)

theorem bare_after (s : Store) (call : Call) :
    (s.after call).bare = s.bare := by
  rw [bare, bare, tree_after]

theorem bare_afterAll (s : Store) (calls : List Call) :
    (s.afterAll calls).bare = s.bare := by
  rw [bare, bare, tree_afterAll]

/-- A sound store answers a pattern as its triples do without an index. -/
theorem drain_search_bare (h : s.tree.Consistent) (hsound : s.Sound)
    (pattern : Triple) :
    (s.search pattern).drain = (s.bare.search pattern).drain := by
  have hindex := sound_prepare hsound pattern
  rw [Sound, Keeps, tree_prepare] at hindex
  exact Cursor.drain_plan_index h hindex

/-- One call leaves a sound store sound. -/
theorem sound_after (hsound : s.Sound) {call : Call}
    (hcall : ∀ x, call = .attach x → x.Lists s.tree) :
    (s.after call).Sound :=
  keeps_after (fun _ _ => PredicateIndex.lists_of_build) hsound fun x hx _ =>
    hcall x hx

theorem answers_of_sound (h : s.tree.Consistent) (hsound : s.Sound)
    (hcalls : ∀ x, .attach x ∈ calls → x.Lists s.tree) :
    s.answers calls = (patterns calls).map fun pattern =>
      (s.bare.search pattern).drain := by
  induction calls generalizing s with
  | nil => rfl
  | cons call calls ih =>
      have hsound' := sound_after hsound fun x hx =>
        hcalls x (hx ▸ List.mem_cons_self)
      have ih := ih (s := s.after call) (by rwa [tree_after]) hsound' (by
        rw [tree_after]
        exact fun x hx => hcalls x (List.mem_cons_of_mem _ hx))
      rw [bare_after] at ih
      cases call with
      | search pattern =>
          rw [answers, ih, drain_search_bare h hsound]
          rfl
      | ensureIndex => exact ih
      | attach x => exact ih

/-- Whatever the history, each search of a run gives the triples and positions
that it gives on the same store without an index and without the leave to build
one. -/
theorem answers_eq_bare (h : s.Made) (hcalls : Own s.tree calls) :
    s.answers calls = (patterns calls).map fun pattern =>
      (s.bare.search pattern).drain :=
  answers_of_sound h.consistent h.sound hcalls.lists

theorem answers_attached_midway : ∃ s x,
    (build .standard [⟨1, 1, 1⟩, ⟨2, 1, 2⟩, ⟨2, 2, 1⟩]).result = .ok s ∧
    PredicateIndex.build s.tree = .ok x ∧
    s.answers [.search ⟨2, 0, 0⟩, .attach x, .ensureIndex, .search ⟨0, 1, 0⟩] =
      [[(⟨2, 1, 2⟩, some 1), (⟨2, 2, 1⟩, some 2)],
       [(⟨1, 1, 1⟩, some 0), (⟨2, 1, 2⟩, some 1)]] := by
  have heval :
      ((build .standard [⟨1, 1, 1⟩, ⟨2, 1, 2⟩, ⟨2, 2, 1⟩]).result >>= fun s =>
      PredicateIndex.build s.tree >>= fun x => .ok x.size).toOption =
        some 3 := by decide +kernel
  obtain ⟨s, hbuild, hindex⟩ := bind_eq_ok.mp (toOption_eq_some.mp heval)
  obtain ⟨x, hx, -⟩ := bind_eq_ok.mp hindex
  have hown :
      Own s.tree [.search ⟨2, 0, 0⟩, .attach x, .ensureIndex,
        .search ⟨0, 1, 0⟩] := by
    intro y hy
    obtain rfl : y = x := by simpa using hy
    exact hx
  have htree := (build_eq_ok hbuild).1
  have hbare : ∀ pattern, (s.bare.search pattern).drain =
      s.tree.entries.filter fun e => pattern.covers e.1 :=
    drain_search (s := s.bare) (Tree.consistent_of_build htree)
      (Tree.ascending_of_build htree).findable (sound_of_index?_eq_none rfl)
  refine ⟨s, x, hbuild, hx, ?_⟩
  rw [answers_eq_bare (.built _ _ hbuild) hown,
    show patterns [.search ⟨2, 0, 0⟩, .attach x, .ensureIndex,
      .search ⟨0, 1, 0⟩] = [⟨2, 0, 0⟩, ⟨0, 1, 0⟩] from rfl]
  simp only [hbare, entries_of_holds (Tree.holds_of_build htree).2]
  decide

end Store

end TripleStore
