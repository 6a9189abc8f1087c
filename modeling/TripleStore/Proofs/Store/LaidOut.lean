import Mathlib.Data.List.Chain
import TripleStore.Proofs.Store.Built
import TripleStore.Proofs.Tree.Draft

/-!
# Where triples are laid out

The first level of a tree lists the different occurrences of its triples, in the
order in which they first appear, each under its major id. The second lists the
minor ids of all triples, each under the number of its occurrence
(`Tree.LaidOut`). Every store that is built is laid out so, and the pass over
its triples that puts down each bit one triple late comes to the same tree
(`layout_exact`).
-/

namespace TripleStore

namespace Adjacency

/-- A level that is made of the runs of a list has its values in the order of
the list, each under the number of its run. -/
theorem toList_of_level {α κ : Type} [DecidableEq κ] {key : α → κ}
    {value : α → UInt64} {l : List α} {a : Adjacency}
    (h : Tree.level (Runs.ends key l) (l.map value) = .ok a) (number : α → Nat)
    (hnumber : ∀ i (hi : i < l.length),
      number l[i] = Runs.endsBefore key l i + 1) :
    a.toList = l.map fun x => (number x, value x) := by
  have hholds := holds_of_level h
  have hlength : l.length = a.size := by
    rw [← hholds.length_values, List.length_map]
  rw [toList_eq, ← hlength]
  apply List.ext_getElem
  · simp
  · intro i hi _
    rw [List.length_map, List.length_range] at hi
    have hkey : a.key i = number l[i] := by
      rw [hnumber i hi, hholds.key (by omega)]
      rfl
    have hvalue := hholds.value i (by rwa [List.length_map])
    rw [List.getElem_map] at hvalue
    simp [hkey, hvalue]

end Adjacency

namespace Tree

/-- The different occurrences, in the order in which they first appear. -/
def occurrences (coords : List Coords) : List (Id × Id) :=
  (coords.map occurrence).eraseDups

/-- One occurrence comes before another. -/
def Precedes (o p : Id × Id) : Prop := o.1 < p.1 ∨ o.1 = p.1 ∧ o.2 < p.2

/-- What a tree stores of triples with these coordinates, level by level. -/
structure LaidOut (t : Tree) (coords : List Coords) : Prop where
  ascend : (occurrences coords).Pairwise Precedes
  middles : t.middles.toList = (occurrences coords).map fun o =>
    (o.1.toNat, o.2)
  minors : t.minors.toList =
    coords.map fun c => (1 + (occurrences coords).idxOf (occurrence c), c.minor)
  groups : t.minors.keys = t.middles.size
  majors : t.majors = (coords.getLast?.map fun c => c.major.toNat).getD 0
  middlesOf : ∀ x span, t.middles.span x = .ok span →
    (span.toList.map t.middles.value).Pairwise (· < ·)
  minorsOf : ∀ y span, t.minors.span y = .ok span →
    (span.toList.map t.minors.value).Pairwise (· ≤ ·)
  maxMiddle : t.maxMiddle = (t.middles.toList.map Prod.snd).max?.getD 0
  maxMinor : t.maxMinor = (t.minors.toList.map Prod.snd).max?.getD 0

theorem Precedes.trans {o p q : Id × Id} (h : Precedes o p)
    (h' : Precedes p q) : Precedes o q := by
  unfold Precedes at *
  grind

theorem Precedes.ne {o p : Id × Id} (h : Precedes o p) : o ≠ p := by
  rintro rfl
  rcases h with h | ⟨-, h⟩
  · exact UInt64.lt_irrefl _ h
  · exact UInt64.lt_irrefl _ h

instance : IsTrans (Id × Id) Precedes := ⟨fun _ _ _ => Precedes.trans⟩

theorem FollowsOccurrence.precedes {l c : Coords} (h : FollowsOccurrence l c) :
    Precedes (occurrence l) (occurrence c) := by
  rcases h with hnext | ⟨hsame, hless⟩
  · exact .inl (UInt64.lt_iff_toNat_lt.mpr
      (by show l.major.toNat < c.major.toNat; omega))
  · exact .inr ⟨hsame.symm, hless⟩

section Ascending

variable {coords : List Coords} (h : coords.IsChain Follows)

include h

theorem pairwise_lasts :
    ((Runs.lasts occurrence coords).map occurrence).Pairwise Precedes := by
  rw [← List.isChain_iff_pairwise, List.isChain_map]
  exact (followsOccurrence_lasts h).imp fun _ _ => FollowsOccurrence.precedes

theorem nodup_lasts : ((Runs.lasts occurrence coords).map occurrence).Nodup :=
  (pairwise_lasts h).imp fun {_ _} => Precedes.ne

/-- Triples that ascend do not come back to an occurrence. -/
theorem map_lasts :
    (Runs.lasts occurrence coords).map occurrence = occurrences coords :=
  Runs.map_lasts_eq_eraseDups (nodup_lasts h)

end Ascending

variable {order : Order} {triples : List Triple} {t : Tree}

theorem laidOut_of_build (h : build order triples = .ok t) :
    t.LaidOut (triples.map order.toCoords) := by
  have hascending := ascending_of_build h
  have hconsistent := consistent_of_build h
  obtain ⟨hcheck, horder, hmiddles, hminors, hmaxMiddle, hmaxMinor⟩ :=
    parts_of_build h
  obtain ⟨hchain, hfirst, -⟩ := check_iff.mp hcheck
  generalize triples.map order.toCoords = coords at *
  have hoccurrences := map_lasts hchain
  have hmiddleList :
      t.middles.toList = (occurrences coords).map fun o =>
        (o.1.toNat, o.2) := by
    rw [← hoccurrences, List.map_map]
    exact Adjacency.toList_of_level hmiddles
      (fun c => c.major.toNat) fun i hi =>
        major_eq (followsOccurrence_lasts hchain) (first_lasts hfirst) hi
  have hminorList : t.minors.toList =
      coords.map fun c =>
        (1 + (occurrences coords).idxOf (occurrence c), c.minor) := by
    refine Adjacency.toList_of_level hminors _ fun i hi => ?_
    rw [← hoccurrences, Runs.idxOf_key (nodup_lasts hchain) hi, Nat.add_comm]
  exact {
    ascend := hoccurrences ▸ pairwise_lasts hchain
    middles := hmiddleList
    minors := hminorList
    groups := hconsistent.groups
    majors := by
      rw [majors, Adjacency.keys_eq_getLast?, hmiddleList, ← hoccurrences,
        List.map_map, List.getLast?_map, Runs.getLast?_lasts, Option.map_map]
      rfl
    middlesOf := fun _ _ => Adjacency.pairwise_span fun _ _ =>
      hascending.middles_lt
    minorsOf := fun _ _ => Adjacency.pairwise_span fun _ _ hij =>
      hascending.minors_le hij.le
    maxMiddle := by
      rw [hmaxMiddle, Sequence.maximum_eq_max?, hmiddleList, ← hoccurrences,
        List.map_map, List.map_map]
      rfl
    maxMinor := by
      rw [hmaxMinor, Sequence.maximum_eq_max?, hminorList, List.map_map]
      rfl }

end Tree

namespace Store

variable {config : Config} {triples : List Triple} {s : Store}

/-- The tree of a store that was built has both levels of its triples, and one
pass over the triples gives the same tree. -/
theorem layout_exact (h : (build config triples).result = .ok s) :
    s.tree.LaidOut (triples.map config.order.toCoords) ∧
      Tree.layOut config.order triples = .ok s.tree := by
  obtain ⟨hbuild, -, -⟩ := build_eq_ok h
  have hroom : triples.length ≤ maxBits := by
    rw [← (Tree.holds_of_build hbuild).2.size]
    exact Adjacency.size_le _
  exact ⟨Tree.laidOut_of_build hbuild,
    (Tree.layOut_eq_build hroom).trans hbuild⟩

theorem layout_exact_repeated : ∃ s,
    (build { Config.standard with order := .pos }
      [⟨5, 1, 1⟩, ⟨5, 1, 1⟩, ⟨2, 1, 3⟩, ⟨1, 2, 1⟩]).result =
      .ok s ∧
    s.tree.middles.toList = [(1, 1), (1, 3), (2, 1)] ∧
    s.tree.minors.toList = [(1, 5), (1, 5), (2, 2), (3, 1)] ∧
    s.tree.majors = 2 ∧ s.tree.maxMiddle = 3 ∧ s.tree.maxMinor = 5 := by
  have hok : ((build { Config.standard with order := .pos }
      [⟨5, 1, 1⟩, ⟨5, 1, 1⟩, ⟨2, 1, 3⟩, ⟨1, 2, 1⟩]).result >>=
        fun s => .ok s.tree.size).toOption =
        some 4 := by decide +kernel
  obtain ⟨s, hbuild, -⟩ := bind_eq_ok.mp (toOption_eq_some.mp hok)
  obtain ⟨hlaid, -⟩ := layout_exact hbuild
  refine ⟨s, hbuild, hlaid.middles, hlaid.minors, hlaid.majors, ?_, ?_⟩
  · rw [hlaid.maxMiddle, hlaid.middles]
    rfl
  · rw [hlaid.maxMinor, hlaid.minors]
    rfl

end Store

end TripleStore
