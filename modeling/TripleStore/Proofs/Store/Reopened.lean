import TripleStore.Store.Disk
import TripleStore.Proofs.PredicateIndex.Compatible
import TripleStore.Proofs.PredicateIndex.Section
import TripleStore.Proofs.Store.Built

/-!
# Stores that are saved and opened again

Saving writes the file beside the main one only if the store has an index, and
opening reads that file whenever it is there. So a store that was saved can be
opened again exactly if it had an index, or what lay beside the main file before
is an index of its tree (`load_save_iff`). A store without an index that is
saved over one with an index is lost (`load_save_stale`).
-/

namespace TripleStore

/-! ## Indexes that fit -/

namespace Store

variable {config : Config} {triples : List Triple} {s : Store}

/-- An index that is there has no conflict with the tree, whatever index comes
in. -/
theorem keeps_conflict?_afterAll (h : (build config triples).result = .ok s)
    (calls : List Call) :
    (s.afterAll calls).Keeps fun x t => x.conflict? t = none := by
  obtain ⟨-, -, hkeeps⟩ := build_eq_ok h
  have hindex : ∀ t x, PredicateIndex.build t = .ok x → x.conflict? t = none :=
    fun _ _ => PredicateIndex.conflict?_of_build
  exact keeps_afterAll hindex (hkeeps hindex) fun _ _ hconflict => hconflict

end Store

/-! ## Opening -/

namespace Disk

variable {d : Disk} {config : Config} {t u : Tree} {main : Bytes}

/-- What lies beside the main file, if anything, is an index of the tree. -/
def Admits (d : Disk) (config : Config) (t : Tree) : Prop :=
  ∀ sidecar ∈ d.sidecar, ∃ x,
    (PredicateIndex.ofBacking config
      (openFile config.loadMode sidecar)).result = .ok x ∧
      x.conflict? t = none

/-- Attaching to a fresh store fails only for a conflict. -/
theorem attach_ofTree {policy : IndexPolicy} {x : PredicateIndex} :
    (∃ s, (Store.ofTree u policy).attach x = .ok s) ↔ x.conflict? u = none := by
  constructor
  · rintro ⟨s, h⟩
    exact (Store.attach_eq_ok h).1
  · intro h
    exact ⟨_, Store.attach_of_unset h rfl⟩

theorem result_load (hmain : d.main = some main)
    (hread : (Tree.ofBacking config (openFile config.loadMode main)).result =
      .ok u) :
    (d.load config).result = match d.sidecar with
      | none => (Store.ofTree u config.indexPolicy).applyPolicy.result
      | some sidecar =>
        (PredicateIndex.ofBacking config
          (openFile config.loadMode sidecar)).result >>= fun x =>
          (Store.ofTree u config.indexPolicy).attach x >>= fun s =>
            s.applyPolicy.result := by
  rw [load, hmain]
  dsimp only
  rw [Outcome.result_bind, hread]
  show (match d.sidecar with | none => _ | some sidecar => _ :
    Outcome Store).result = _
  cases d.sidecar with
  | none => rfl
  | some sidecar =>
      dsimp only
      rw [Outcome.result_bind]
      refine congrArg _ (funext fun x => ?_)
      rw [Outcome.result_bind]
      rfl

/-- A main file that can be read is opened if what lies beside it is an index of
its tree, and only then. -/
theorem load_eq_ok (hmain : d.main = some main)
    (hread : (Tree.ofBacking config (openFile config.loadMode main)).result =
      .ok u) :
    ((∃ s, (d.load config).result = .ok s) ↔ d.Admits config u) ∧
      ∀ s, (d.load config).result = .ok s → s.tree = u := by
  rw [result_load hmain hread]
  cases hsidecar : d.sidecar with
  | none =>
      obtain ⟨s, happly, htree⟩ :=
        Store.exists_applyPolicy (.ofTree u config.indexPolicy)
      dsimp only
      rw [happly]
      refine ⟨⟨fun _ sidecar hmem => ?_, fun _ => ⟨s, rfl⟩⟩, ?_⟩
      · rw [hsidecar] at hmem
        cases hmem
      · rintro _ ⟨⟩
        exact htree
  | some sidecar =>
      dsimp only
      constructor
      · constructor
        · rintro ⟨s', h⟩ old hmem
          rw [hsidecar] at hmem
          cases hmem
          obtain ⟨x, hx, h⟩ := bind_eq_ok.mp h
          obtain ⟨s, hattach, -⟩ := bind_eq_ok.mp h
          exact ⟨x, hx, attach_ofTree.mp ⟨s, hattach⟩⟩
        · intro h
          obtain ⟨x, hx, hconflict⟩ := h sidecar hsidecar
          obtain ⟨s, hattach⟩ := attach_ofTree.mpr hconflict
          obtain ⟨s', happly, -⟩ := s.exists_applyPolicy
          exact ⟨s', bind_eq_ok.mpr
            ⟨x, hx, bind_eq_ok.mpr ⟨s, hattach, happly⟩⟩⟩
      · intro s' h
        obtain ⟨x, -, h⟩ := bind_eq_ok.mp h
        obtain ⟨s, hattach, happly⟩ := bind_eq_ok.mp h
        obtain ⟨s'', happly', htree⟩ := s.exists_applyPolicy
        obtain rfl : s'' = s' := Except.ok.inj (happly'.symm.trans happly)
        obtain ⟨-, -, rfl⟩ := Store.attach_eq_ok hattach
        exact htree

/-! ## Saving and opening -/

/-- Trees with the same contents have the same indexes. -/
theorem admits_congr (h : t.Same u) :
    d.Admits config t ↔ d.Admits config u := by
  unfold Admits
  simp only [fun x : PredicateIndex =>
    PredicateIndex.conflict?_congr (.refl x.positions) h]

/-- After saving, what lies beside the main file is an index of the tree if the
store has one or if it was before. -/
theorem admits_save {s : Store} (h : s.Keeps fun x t => x.conflict? t = none)
    (saving opening : Config) :
    (d.save s saving).Admits opening s.tree ↔ s.index?.isSome ∨
    d.Admits opening s.tree := by
  unfold Admits save
  cases hindex : s.index? with
  | none => simp
  | some x =>
      simp only [Option.isSome_some, true_or, iff_true]
      intro sidecar hmem
      cases hmem
      obtain ⟨y, hsame, hread⟩ := x.ofBacking_write saving.checksum opening
        (openFile opening.loadMode (x.write saving.checksum).toBytes) rfl
      refine ⟨y, by rw [hread]; rfl, ?_⟩
      rw [← PredicateIndex.conflict?_congr hsame (.refl s.tree)]
      exact h x hindex

end Disk

namespace Store

variable {config : Config} {triples : List Triple} {s : Store}

/-- A store that was built and saved, whatever was asked of it before, can be
opened again with its order and its triples exactly if it had an index when it
was saved or what lay beside the main file before is an index of its tree. -/
theorem load_save_iff (h : (build config triples).result = .ok s)
    (calls : List Call) (d : Disk) (saving opening : Config) :
    (∃ s', ((d.save (s.afterAll calls) saving).load opening).result = .ok s' ∧
      s'.tree.order = (s.afterAll calls).tree.order ∧
      s'.find .any = (s.afterAll calls).find .any) ↔
    (s.afterAll calls).index?.isSome ∨ d.Admits opening s.tree := by
  have hconsistent := Tree.consistent_of_build (build_eq_ok h).1
  have htree := tree_afterAll s calls
  have hadmits := Disk.admits_save (d := d) (keeps_conflict?_afterAll h calls)
    saving opening
  rw [← htree] at hconsistent ⊢
  obtain ⟨u, hsame, hread⟩ :=
    Tree.ofBacking_write hconsistent saving.checksum opening
    (Disk.openFile opening.loadMode
      ((s.afterAll calls).tree.write saving.checksum).toBytes) rfl
  obtain ⟨hopened, hsaved⟩ :=
    Disk.load_eq_ok (d := d.save (s.afterAll calls) saving) rfl
    (by rw [hread]; rfl)
  rw [← hadmits, Disk.admits_congr hsame, ← hopened]
  refine exists_congr fun s' => ⟨fun h => h.1, fun h => ⟨h, ?_⟩⟩
  have hs' := hsaved s' h
  refine ⟨hs' ▸ hsame.order.symm, ?_⟩
  rw [find_any hconsistent, find_any (hs' ▸ hsame.consistent hconsistent), hs',
    hsame.toList hconsistent]

theorem load_save_over_leftovers :
    ∃ s s', (build .standard [⟨1, 1, 1⟩, ⟨2, 1, 2⟩]).result = .ok s ∧
    ((Disk.save ⟨none, some [0]⟩ (s.afterAll [.ensureIndex]) .standard).load
      { Config.standard with loadMode := .mapped }).result = .ok s' ∧
    s'.find .any = [⟨1, 1, 1⟩, ⟨2, 1, 2⟩] := by
  have heval : ((build .standard [⟨1, 1, 1⟩, ⟨2, 1, 2⟩]).result >>= fun s =>
      .ok (s.afterAll [.ensureIndex]).index?.isSome).toOption =
        some true := by decide +kernel
  obtain ⟨s, hs, heval⟩ := bind_eq_ok.mp (toOption_eq_some.mp heval)
  have hindex := Except.ok.inj heval
  obtain ⟨hbuild, -, -⟩ := build_eq_ok hs
  obtain ⟨s', hload, -, hfind⟩ :=
    (load_save_iff hs [.ensureIndex] ⟨none, some [0]⟩ .standard
    { Config.standard with loadMode := .mapped }).mpr (.inl hindex)
  refine ⟨s, s', hs, hload, ?_⟩
  have hconsistent := Tree.consistent_of_build hbuild
  rw [hfind, find_any (by rwa [tree_afterAll]), tree_afterAll,
    (Tree.holds_of_build hbuild).2.toList]

/-- A store without an index that is saved over one with an index cannot be
opened again: the index of the other store still lies beside it. -/
theorem load_save_stale : ∃ s₀ s₁,
    (build { Config.standard with indexPolicy := .eager }
      [⟨1, 1, 1⟩, ⟨1, 2, 1⟩]).result = .ok s₀ ∧
    (build { Config.standard with indexPolicy := .disabled }
      [⟨1, 1, 1⟩, ⟨2, 1, 2⟩]).result = .ok s₁ ∧
    ∀ opening,
      (((Disk.empty.save s₀ .standard).save s₁ .standard).load opening).result =
      .error (.invalidArgument (.indexShape 2 2 1 2)) := by
  have heval : ((do
      let s₀ ← (build { Config.standard with indexPolicy := .eager }
        [⟨1, 1, 1⟩, ⟨1, 2, 1⟩]).result
      let s₁ ← (build { Config.standard with indexPolicy := .disabled }
        [⟨1, 1, 1⟩, ⟨2, 1, 2⟩]).result
      return (s₀.index?.map fun x => (x.predicates, x.size), s₁.index?.isSome,
        (s₁.tree.maxMiddle, s₁.tree.middles.size)) :
        Except Error (Option (Nat × Nat) × Bool × (Id × Nat)))).toOption =
      some (some (2, 2), false, (1, 2)) := by decide +kernel
  obtain ⟨s₀, hs₀, heval⟩ := bind_eq_ok.mp (toOption_eq_some.mp heval)
  obtain ⟨s₁, hs₁, heval⟩ := bind_eq_ok.mp heval
  have heval := Except.ok.inj heval
  simp only [Prod.mk.injEq, Option.map_eq_some_iff] at heval
  obtain ⟨⟨x, hx, hpredicates, hsize⟩, hnone, hmax, hmiddles⟩ := heval
  refine ⟨s₀, s₁, hs₀, hs₁, fun opening => ?_⟩
  have hconsistent := Tree.consistent_of_build (build_eq_ok hs₁).1
  obtain ⟨u, hsame, hread⟩ := Tree.ofBacking_write hconsistent .standard opening
    (Disk.openFile opening.loadMode (s₁.tree.write .standard).toBytes) rfl
  obtain ⟨y, hpositions, hread'⟩ := x.ofBacking_write .standard opening
    (Disk.openFile opening.loadMode (x.write .standard).toBytes) rfl
  have hsidecar : ((Disk.empty.save s₀ .standard).save s₁ .standard).sidecar =
      some (x.write .standard).toBytes := by
    have hnone : s₁.index? = none := by simpa using hnone
    rw [Disk.save, Disk.save]
    dsimp only
    rw [hnone, hx]
    rfl
  have hconflict : y.conflict? u = some (.indexShape 2 2 1 2) := by
    rw [← PredicateIndex.conflict?_congr hpositions hsame,
      PredicateIndex.conflict?, hpredicates, hsize, hmax, hmiddles]
    rfl
  rw [Disk.result_load (u := u) rfl (congrArg Outcome.result hread), hsidecar]
  dsimp only
  rw [hread']
  have hattach : (ofTree u opening.indexPolicy).attach y =
      .error (.invalidArgument (.indexShape 2 2 1 2)) :=
        attach_of_conflict hconflict
  show ((ofTree u opening.indexPolicy).attach y >>=
    fun s => s.applyPolicy.result) = _
  rw [hattach]
  rfl

end Store

end TripleStore
