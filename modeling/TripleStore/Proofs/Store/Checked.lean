import TripleStore.Proofs.Checked.Fits
import TripleStore.Proofs.Checked.Index
import TripleStore.Proofs.Cursor.Soundness
import TripleStore.Proofs.Store.Made

/-!
# Searching with every access checked

Whatever bytes a store was loaded from, and whatever indexes of other bytes were
offered to it, a search reads only what there is. It comes to its end, and what
it gives are triples of the store that the pattern covers, each with its
position (`search_checked`).
-/

namespace TripleStore

namespace Checked

/-! ## The index -/

def ensureIndex (s : Store) : Option (Store × List Warning) :=
  match s.cell with
  | .unset => do
    match ← buildIndex s.tree with
    | .ok index => return ({ s with cell := .ready index }, [])
    | .error e =>
      return ({ s with cell := .unavailable }, [.indexUnavailable e])
  | _ => some (s, [])

def prepare (s : Store) (pattern : Triple) : Option (Store × List Warning) :=
  if s.policy ≠ .disabled ∧ s.usesIndex pattern then
    ensureIndex s else some (s, [])

def search (s : Store) (pattern : Triple) : Option Cursor := do
  plan s.tree (s.tree.order.toCoords pattern) (← prepare s pattern).1.index?

variable {s : Store}

theorem ensureIndex_eq (h : s.tree.Fits) :
    ensureIndex s = some s.ensureIndex := by
  unfold ensureIndex Store.ensureIndex
  cases s.cell with
  | unset =>
      dsimp only
      rw [buildIndex_eq h]
      dsimp only [Option.bind_eq_bind, Option.bind_some]
      cases PredicateIndex.build s.tree with
      | ok index => rfl
      | error e => rfl
  | unavailable => rfl
  | ready index => rfl

theorem prepare_eq (h : s.tree.Fits) (pattern : Triple) :
    prepare s pattern = some (s.prepare pattern) := by
  unfold prepare Store.prepare
  split
  · exact ensureIndex_eq h
  · rfl

end Checked

/-- The entries are what single access gives position by position. -/
theorem Tree.map_entries (t : Tree) :
    t.entries.map (fun e => (Except.ok e.1, e.2)) =
    (List.range t.size).map fun i => (t.tripleAt i, some i) := by
  rw [entries, List.map_map]
  apply List.map_congr_left
  intro i hi
  rw [tripleAt, if_pos (List.mem_range.mp hi)]
  rfl

/-! ## Indexes that can be walked -/

/-- Going through the index reads words that there are and leads to occurrences
of the tree. -/
def PredicateIndex.Safe (x : PredicateIndex) (t : Tree) : Prop :=
  x.Fits ∧ x.conflict? t = none

theorem PredicateIndex.safe_of_build {t : Tree} {x : PredicateIndex}
    (h : build t = .ok x) :
    x.Safe t := ⟨fits_of_build h, conflict?_of_build h⟩

theorem PredicateIndex.Safe.listed_lt {t : Tree} {x : PredicateIndex}
    (h : x.Safe t) {p j : Nat} (hpos : 0 < p) (hp : p ≤ t.maxMiddle.toNat)
    (hj : j ∈ x.listed p) : j < t.middles.size := by
  rw [← (conflict?_eq_none_iff.mp h.2).1] at hp
  exact (Tree.mem_occurrencesOf.mp
    (mem_occurrencesOf_of_listed h.2 hpos hp hj)).1

theorem PredicateIndex.Made.fits {x : PredicateIndex} (h : x.Made) :
    x.Fits := by
  cases h with
  | built t h => exact fits_of_build h
  | read config backing h => exact fits_of_ofBacking h

namespace Store

variable {s : Store} {calls : List Call}

theorem Made.fits (h : s.Made) : s.tree.Fits :=
  h.of_tree (fun _ _ _ => Tree.fits_of_build) fun _ _ _ =>
    Tree.fits_of_ofBacking

/-- Nothing but the comparison with the tree is asked of an index from outside. -/
theorem safe_afterAll (h : s.Made) (hcalls : ∀ x, .attach x ∈ calls → x.Made) :
    (s.afterAll calls).Keeps PredicateIndex.Safe :=
  keeps_afterAll (fun _ _ => PredicateIndex.safe_of_build)
    (h.keeps fun _ _ => PredicateIndex.safe_of_build)
    fun x hx hconflict => ⟨(hcalls x hx).fits, hconflict⟩

/-! ## Searching -/

/-- A search passes all its checks and comes to its end, and each triple that it
gives is one that the pattern covers and the one at the position that comes with
it. -/
structure Faithful (s : Store) (pattern : Triple) : Prop where
  planned : Checked.search s pattern = some (s.search pattern)
  ends : Checked.Drains (s.search pattern) (s.search pattern).drain
  gives : ∀ e ∈ (s.search pattern).drain, pattern.covers e.1 = true ∧
    ∃ i, e.2 = some i ∧ s.tree.tripleAt i = .ok e.1

theorem faithful_of_safe (h : s.tree.Consistent) (hfits : s.tree.Fits)
    (hsafe : s.Keeps PredicateIndex.Safe) (pattern : Triple) :
    s.Faithful pattern := by
  have hindex := keeps_prepare (fun _ _ => PredicateIndex.safe_of_build)
    hsafe pattern
  rw [Keeps, tree_prepare] at hindex
  obtain ⟨hplan, hwithin⟩ :
    Checked.plan s.tree (s.tree.order.toCoords pattern) _ =
      some (s.search pattern) ∧ (s.search pattern).Within :=
        Checked.plan_eq h hfits hindex
  constructor
  case planned =>
    rw [Checked.search, Checked.prepare_eq hfits]
    exact hplan
  case ends => exact Checked.drains_drain hwithin
  case gives =>
    intro e he
    have hlisted : ∀ x ∈ (s.prepare pattern).1.index?, ∀ p, 0 < p →
        p ≤ s.tree.maxMiddle.toNat →
        ∀ j ∈ x.listed p, j < s.tree.middles.size :=
      fun x hx p hpos hp j => (hindex x hx).listed_lt hpos hp
    obtain ⟨i, hi, rfl, hcovers⟩ :=
      Cursor.mem_drain_plan h (Cursor.walk_lt hlisted) he
    rw [← Order.covers_ofCoords] at hcovers
    exact ⟨hcovers, i, rfl, if_pos hi⟩

/-- After any run of calls, on a store and with indexes that come from anywhere,
a search stays inside the store, comes to its end and gives only what is there;
and so does the access to single triples, whose results at all positions in turn
make up the iteration. -/
theorem search_checked (h : s.Made) (hcalls : ∀ x, .attach x ∈ calls → x.Made) :
    (∀ pattern, (s.afterAll calls).Faithful pattern) ∧
    (∀ i, Checked.tripleAt s.tree i = some (s.tree.tripleAt i)) ∧
    ((s.afterAll calls).search .any).drain.map (fun e => (Except.ok e.1, e.2)) =
      (List.range s.tree.size).map fun i => (s.tree.tripleAt i, some i) := by
  have htree := tree_afterAll s calls
  have hconsistent : (s.afterAll calls).tree.Consistent := htree ▸ h.consistent
  have hfits : (s.afterAll calls).tree.Fits := htree ▸ h.fits
  refine ⟨faithful_of_safe hconsistent hfits (safe_afterAll h hcalls),
    Checked.tripleAt_eq h.consistent h.fits, ?_⟩
  rw [drain_search_any hconsistent, Tree.map_entries, htree]

theorem search_checked_unsorted :
    ∃ a b i s x, Adjacency.build [[2, 1]] = .ok a ∧
    Adjacency.build [[1], [1]] = .ok b ∧ Adjacency.build [[1], [0]] = .ok i ∧
    (ofBytes ⟨.ops, .mapped, .lazy, .crc32, false⟩
      (Tree.toBytes ⟨.spo, a, b, 2, 1⟩)).result = .ok s ∧
    (PredicateIndex.ofBacking .standard
      (.ofBytes (PredicateIndex.toBytes ⟨i⟩))).result = .ok x ∧
    (s.afterAll [.attach x]).index? = some x ∧
    (s.afterAll [.attach x]).Faithful ⟨0, 2, 0⟩ ∧
    ((s.afterAll [.attach x]).search .any).drain =
      [(⟨1, 2, 1⟩, some 0), (⟨1, 1, 1⟩, some 1)] := by
  have heval : ((do
      let a ← Adjacency.build [[2, 1]]
      let b ← Adjacency.build [[1], [1]]
      let i ← Adjacency.build [[1], [0]]
      let s ← (ofBytes ⟨.ops, .mapped, .lazy, .crc32, false⟩
        (Tree.toBytes ⟨.spo, a, b, 2, 1⟩)).result
      let x ← (PredicateIndex.ofBacking .standard
        (.ofBytes (PredicateIndex.toBytes ⟨i⟩))).result
      let _ ← s.attach x
      return s.tree.entries : Except Error
        (List (Triple × Option Nat)))).toOption =
        some [(⟨1, 2, 1⟩, some 0), (⟨1, 1, 1⟩, some 1)] := by decide +kernel
  obtain ⟨a, ha, heval⟩ := bind_eq_ok.mp (toOption_eq_some.mp heval)
  obtain ⟨b, hb, heval⟩ := bind_eq_ok.mp heval
  obtain ⟨i, hi, heval⟩ := bind_eq_ok.mp heval
  obtain ⟨s, hs, heval⟩ := bind_eq_ok.mp heval
  obtain ⟨x, hx, heval⟩ := bind_eq_ok.mp heval
  obtain ⟨s', hattach, heval⟩ := bind_eq_ok.mp heval
  have hentries : s.tree.entries = _ := Except.ok.inj heval
  have hcalls : ∀ y, .attach y ∈ [Call.attach x] → y.Made := by
    intro y hy
    obtain rfl : y = x := by simpa using hy
    exact .read _ _ hx
  obtain ⟨hfaithful, -, hany⟩ := search_checked (.loaded _ _ hs) hcalls
  refine ⟨a, b, i, s, x, ha, hb, hi, hs, hx, ?_, hfaithful _, ?_⟩
  · show (s.after (.attach x)).index? = some x
    rw [after, hattach, (attach_eq_ok hattach).2.2]
    rfl
  · rw [← Tree.map_entries, hentries] at hany
    exact List.map_injective_iff.mpr
      (by rintro ⟨t, p⟩ ⟨u, q⟩ h; simpa using h) hany

end Store

end TripleStore
