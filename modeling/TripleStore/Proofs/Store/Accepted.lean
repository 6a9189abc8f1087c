import Mathlib.Data.List.Chain
import Mathlib.Data.List.Sort
import Mathlib.Data.Prod.Lex
import TripleStore.Proofs.Store.Built

/-!
# Triples that a store is built from

A list of triples is accepted exactly if, in the layout, no id is 0, the list is
sorted and the major ids count up from 1 without a gap. Any other list is
refused for the first triple that cannot stand where it does; an index that
there is not is no reason (`build_accepts`).
-/

namespace TripleStore

/-- The coordinates as a place in the lexicographic order of numbers. -/
def Coords.place (c : Coords) : ℕ ×ₗ ℕ ×ₗ ℕ :=
  toLex (c.major.toNat, toLex (c.middle.toNat, c.minor.toNat))

/-- Triples that can be laid out: no id is 0, none comes before the one in front
of it, and the major ids count up from 1. -/
structure Storable (order : Order) (triples : List Triple) : Prop where
  concrete : ∀ t ∈ triples, t.Concrete
  sorted : ((triples.map order.toCoords).map Coords.place).SortedLE
  first : ∀ c ∈ (triples.map order.toCoords).head?, c.major = 1
  gapless : (triples.map order.toCoords).IsChain fun l c =>
    c.major.toNat = l.major.toNat ∨ c.major.toNat = l.major.toNat + 1

namespace Tree

variable {order : Order} {triples : List Triple}

/-! ## Checking -/

/-- What may follow does not come before, and skips no major id. -/
theorem follows_iff {l c : Coords} : Follows l c ↔ l.place ≤ c.place ∧
    (c.major.toNat = l.major.toNat ∨ c.major.toNat = l.major.toNat + 1) := by
  simp only [Follows, Coords.place, Prod.Lex.toLex_le_toLex, ← UInt64.toNat_inj,
    UInt64.lt_iff_toNat_lt, UInt64.le_iff_toNat_le]
  omega

theorem isChain_follows_iff {l : List Coords} : l.IsChain Follows ↔
    (l.map Coords.place).SortedLE ∧ l.IsChain fun l c =>
      c.major.toNat = l.major.toNat ∨ c.major.toNat = l.major.toNat + 1 := by
  rw [List.sortedLE_iff_isChain, List.isChain_map]
  simp only [List.isChain_iff_getElem, follows_iff, forall_and]

/-- What holds between neighbours adds up to the order of the whole list. -/
theorem check_iff_storable : check order none triples = .ok () ↔
    Storable order triples := by
  rw [check_iff, isChain_follows_iff]
  constructor
  · rintro ⟨⟨hsorted, hgapless⟩, hfirst, hconcrete⟩
    exact ⟨hconcrete, hsorted, hfirst, hgapless⟩
  · rintro ⟨hconcrete, hsorted, hfirst, hgapless⟩
    exact ⟨⟨hsorted, hgapless⟩, hfirst, hconcrete⟩

/-- The coordinates behind which the next triple comes. -/
def lastOf (order : Order) (last : Option Coords) (triples : List Triple) :
    Option Coords :=
  (triples.getLast?.map order.toCoords).or last

theorem lastOf_cons (last : Option Coords) (t : Triple) (ts : List Triple) :
    lastOf order last (t :: ts) =
      lastOf order (some (order.toCoords t)) ts := by
  rw [lastOf, lastOf, List.getLast?_cons]
  cases ts.getLast? with
  | none => rfl
  | some u => rfl

/-- A check that fails tells the fault of the first triple that has one. -/
theorem check_eq_error {last : Option Coords}
    (h : check order last triples ≠ .ok ()) :
    ∃ before t after fault, triples = before ++ t :: after ∧
      check order last before = .ok () ∧
      fault? order (lastOf order last before) t = some fault ∧
      check order last triples = .error (.construction fault) := by
  induction triples generalizing last with
  | nil => exact absurd rfl h
  | cons t ts ih =>
      cases hfault : fault? order last t with
      | some fault =>
        exact ⟨[], t, ts, fault, rfl, rfl, hfault, by rw [check, hfault]⟩
      | none =>
          rw [Ne, check_cons_iff, not_and] at h
          obtain ⟨before, u, after, fault, rfl, hbefore, hu, herror⟩ :=
            ih (h hfault)
          refine ⟨t :: before, u, after, fault, rfl,
            check_cons_iff.mpr ⟨hfault, hbefore⟩, ?_, ?_⟩
          · rw [lastOf_cons, hu]
          · rw [check, hfault]
            exact herror

/-! ## Building -/

theorem exists_level_of_runs {α κ : Type} [DecidableEq κ] (key : α → κ)
    (value : α → Id) {l : List α} (hle : l.length ≤ maxBits) :
    ∃ a, level (Runs.ends key l) (l.map value) = .ok a := by
  have hlength := Runs.length_ends key l
  apply Adjacency.exists_level
  · rw [hlength, List.length_map]
  · intro hne
    rw [hlength]
    exact Runs.ends_last l (by rintro rfl; exact hne rfl)
  · rwa [hlength]

/-- Nothing but the check keeps triples from being stored, if there are not too
many. -/
theorem exists_build (hcheck : check order none triples = .ok ())
    (hle : triples.length ≤ maxBits) :
    ∃ t, build order triples = .ok t := by
  have hcoords : (triples.map order.toCoords).length ≤ maxBits := by
    rwa [List.length_map]
  have hruns :
      (Runs.lasts occurrence (triples.map order.toCoords)).length ≤ maxBits :=
    Nat.le_trans (Runs.length_lasts_le _ _) hcoords
  obtain ⟨middles, hmiddles⟩ :=
    exists_level_of_runs Coords.major Coords.middle hruns
  obtain ⟨minors, hminors⟩ :=
    exists_level_of_runs occurrence Coords.minor hcoords
  rw [build, hcheck]
  dsimp only [bind, Except.bind]
  rw [hmiddles, hminors]
  exact ⟨_, rfl⟩

theorem build_of_check_error {e : Error}
    (h : check order none triples = .error e) :
    build order triples = .error e := by
  rw [build, h]
  rfl

end Tree

namespace Store

variable {config : Config} {triples : List Triple}

/-- A tree that is built makes a store, whatever the policy does. -/
theorem exists_build_of_tree {t : Tree}
    (h : Tree.build config.order triples = .ok t) :
    ∃ s, (build config triples).result = .ok s := by
  obtain ⟨s, happly, -⟩ := (ofTree t config.indexPolicy).exists_applyPolicy
  exact ⟨s, Outcome.result_bind_eq_ok.mpr ⟨t, h, happly⟩⟩

theorem ensureIndex_of_error {s : Store} {e : Error} (hcell : s.cell = .unset)
    (h : PredicateIndex.build s.tree = .error e) :
    s.ensureIndex = ({ s with cell := .unavailable },
      [.indexUnavailable e]) := by
  rw [ensureIndex, hcell]
  dsimp only
  rw [h]

/-- An eager store without an index warns that there is none, and is there all
the same. -/
theorem build_of_no_index (hpolicy : config.indexPolicy = .eager)
    {t : Tree} {e : Error} (h : Tree.build config.order triples = .ok t)
    (hindex : PredicateIndex.build t = .error e) :
    build config triples =
      ⟨[.indexUnavailable e], .ok ⟨t, .eager, .unavailable⟩⟩ := by
  have happly : (ofTree t .eager).applyPolicy =
      ⟨[.indexUnavailable e], .ok ⟨t, .eager, .unavailable⟩⟩ := by
    rw [applyPolicy, if_pos (show (ofTree t .eager).policy = .eager from rfl),
      ensureIndex_of_error rfl hindex]
    rfl
  rw [build, h, hpolicy]
  exact happly

variable (config) in
/-- Of a list that a bitmap has room for, a store is built under any policy if
and only if the list can be laid out. If not, the error is what is wrong with
the first triple that cannot follow those before it. An eager store for which no
index can be built comes without one. -/
theorem build_accepts (hle : triples.length ≤ maxBits) :
    ((∃ s, (build config triples).result = .ok s) ↔
      Storable config.order triples) ∧
    (¬ Storable config.order triples →
      ∃ before t after fault, triples = before ++ t :: after ∧
      Storable config.order before ∧
      Tree.fault? config.order (before.getLast?.map config.order.toCoords)
        t = some fault ∧
      (build config triples).result = .error (.construction fault)) ∧
    (config.indexPolicy = .eager → Storable config.order triples → ∃ t,
      Tree.build config.order triples = .ok t ∧
      ∀ e, PredicateIndex.build t = .error e →
        build config triples =
          ⟨[.indexUnavailable e], .ok ⟨t, .eager, .unavailable⟩⟩) := by
  have htree : Storable config.order triples →
      ∃ t, Tree.build config.order triples = .ok t :=
    fun h => Tree.exists_build (Tree.check_iff_storable.mpr h) hle
  refine ⟨⟨?_, ?_⟩, ?_, ?_⟩
  · rintro ⟨s, hs⟩
    exact Tree.check_iff_storable.mp (Tree.parts_of_build (build_eq_ok hs).1).1
  · intro h
    obtain ⟨t, ht⟩ := htree h
    exact exists_build_of_tree ht
  · intro hnot
    obtain ⟨before, t, after, fault, hsplit, hbefore, hfault, herror⟩ :=
      Tree.check_eq_error (mt Tree.check_iff_storable.mp hnot)
    refine ⟨before, t, after, fault, hsplit, Tree.check_iff_storable.mp hbefore,
      ?_, ?_⟩
    · rwa [Tree.lastOf, Option.or_none] at hfault
    · rw [build, Outcome.result_bind]
      show (Tree.build config.order triples >>= _) = _
      rw [Tree.build_of_check_error herror]
      rfl
  · intro hpolicy h
    obtain ⟨t, ht⟩ := htree h
    exact ⟨t, ht, fun e => build_of_no_index hpolicy ht⟩

theorem build_accepts_sparse :
    (∃ t, build { Config.standard with order := .pos, indexPolicy := .eager }
        [⟨5, 1, 1⟩, ⟨5, 1, 1⟩, ⟨2, 1, 3⟩, ⟨1, 2, 1⟩] =
      ⟨[.indexUnavailable (.construction (.absentPredicate 2))],
        .ok ⟨t, .eager, .unavailable⟩⟩) ∧
    (build .standard [⟨1, 1, 1⟩, ⟨3, 1, 1⟩]).result =
      .error (.construction (.majorGap 1 3)) := by
  constructor
  · have hstorable :
        Storable .pos [⟨5, 1, 1⟩, ⟨5, 1, 1⟩, ⟨2, 1, 3⟩, ⟨1, 2, 1⟩] :=
      Tree.check_iff_storable.mp rfl
    obtain ⟨t, ht, hwarns⟩ := (build_accepts
      { Config.standard with order := .pos, indexPolicy := .eager }
      (by decide)).2.2 rfl hstorable
    have heval :
        ((Tree.build .pos
          [⟨5, 1, 1⟩, ⟨5, 1, 1⟩, ⟨2, 1, 3⟩, ⟨1, 2, 1⟩]).toOption.map
            fun t => (PredicateIndex.build t).map (·.size)) =
          some (.error (.construction (.absentPredicate 2))) := by
      decide +kernel
    rw [show Tree.build .pos _ = _ from ht] at heval
    have hindex : (PredicateIndex.build t).map (·.size) = _ :=
      Option.some.inj heval
    refine ⟨t, hwarns _ ?_⟩
    cases hbuild : PredicateIndex.build t with
    | ok x =>
        rw [hbuild] at hindex
        cases hindex
    | error e =>
        rw [hbuild] at hindex
        cases hindex
        rfl
  · have hnot : ¬ Storable Config.standard.order [⟨1, 1, 1⟩, ⟨3, 1, 1⟩] := by
      intro h
      have := h.gapless
      simp [Order.toCoords, Config.standard] at this
    obtain ⟨before, t, after, fault, hsplit, -, hfault, herror⟩ :=
      (build_accepts .standard (by decide)).2.1 hnot
    rcases before with _ | ⟨u, _ | ⟨v, before⟩⟩
    · cases hsplit
      cases hfault
    · cases hsplit
      cases hfault
      exact herror
    · simp at hsplit

end Store

end TripleStore
