import TripleStore.Proofs.Cursor.Rewinding
import TripleStore.Proofs.Store.Built
import TripleStore.Terms

/-!
# What a search by terms finds

A bound term is asked for by its id, and no triple of a store has the id 0. So
whether the dictionary knows the terms or not, those triples are found whose ids
the bound terms have (`Store.findTerms_eq`), and each keeps its place whether it
can be translated or not (`Store.next_searchTerms`). Where the dictionary takes
ids back to their terms, this is a search among the translated triples
(`Dictionary.exists_map_translate`).
-/

namespace TripleStore

/-! ## Roles -/

def Role.all : List Role := [.subject, .predicate, .object]

theorem Role.mem_all (role : Role) : role ∈ all := by
  cases role <;> decide

theorem Role.forall_iff {P : Role → Prop} :
    (∀ role, P role) ↔ P .subject ∧ P .predicate ∧ P .object := by
  constructor
  · exact fun h => ⟨h .subject, h .predicate, h .object⟩
  · rintro ⟨hs, hp, ho⟩ role
    cases role with
    | subject => exact hs
    | predicate => exact hp
    | object => exact ho

def Triple.id (t : Triple) : Role → Id
  | .subject => t.subject
  | .predicate => t.predicate
  | .object => t.object

def TermPattern.term (p : TermPattern) : Role → Option String
  | .subject => p.subject
  | .predicate => p.predicate
  | .object => p.object

def TermTriple.term (u : TermTriple) : Role → String
  | .subject => u.subject
  | .predicate => u.predicate
  | .object => u.object

theorem Triple.concrete_iff_id {t : Triple} :
    t.Concrete ↔ ∀ role, t.id role ≠ 0 := by
  rw [Role.forall_iff]
  rfl

theorem Triple.covers_iff_id {pattern t : Triple} :
    pattern.covers t = true ↔ ∀ role, pattern.id role = 0 ∨
      pattern.id role = t.id role := by
  rw [Role.forall_iff]
  simp only [covers, Bool.and_eq_true, Bool.or_eq_true, beq_iff_eq, and_assoc]
  rfl

/-- The terms that the pattern binds are those of the triple. -/
def TermPattern.covers (p : TermPattern) (u : TermTriple) : Bool :=
  Role.all.all fun role => (p.term role).all (· == u.term role)

theorem TermPattern.covers_iff {p : TermPattern} {u : TermTriple} :
    p.covers u = true ↔ ∀ role term, p.term role = some term →
      term = u.term role := by
  simp [covers, Role.mem_all, Option.all_eq_true]

namespace Dictionary

variable {d : Dictionary} {p : TermPattern} {t pattern : Triple} {role : Role}

/-- The terms that the pattern binds have the ids of the triple. -/
def meets (d : Dictionary) (p : TermPattern) (t : Triple) : Bool :=
  Role.all.all fun role => (p.term role).all fun term =>
    d.idOf role term == some (t.id role)

theorem meets_iff : d.meets p t = true ↔
    ∀ role term, p.term role = some term →
    d.idOf role term = some (t.id role) := by
  simp [meets, Role.mem_all, Option.all_eq_true]

/-! ## Terms to ids -/

theorem resolveTerm_eq_some {term : String} {id : Id} :
    d.resolveTerm role (some term) = some id ↔ d.idOf role term = some id ∧
    id ≠ 0 := by
  rw [resolveTerm, Option.filter_eq_some_iff, decide_eq_true_eq]

theorem resolve_eq_some : d.resolve p = some pattern ↔
    ∀ role, d.resolveTerm role (p.term role) = some (pattern.id role) := by
  obtain ⟨s, q, o⟩ := pattern
  rw [Role.forall_iff]
  simp [resolve, Option.bind_eq_some_iff, TermPattern.term, Triple.id]

theorem resolveTerm_eq_none {o : Option String} : d.resolveTerm role o = none ↔
    ∃ term, o = some term ∧
      (d.idOf role term = none ∨ d.idOf role term = some 0) := by
  cases o with
  | none => simp [resolveTerm]
  | some term =>
    cases hid : d.idOf role term <;> simp [resolveTerm, hid, Option.filter]

/-- There is nothing to ask for just if one of the bound terms is unknown, or
known as 0. -/
theorem resolve_eq_none :
    d.resolve p = none ↔ ∃ role term, p.term role = some term ∧
    (d.idOf role term = none ∨ d.idOf role term = some 0) := by
  simp only [← resolveTerm_eq_none]
  constructor
  · intro hnone
    by_contra hall
    have hsome : ∀ role, ∃ id, d.resolveTerm role (p.term role) = some id :=
      fun role =>
        Option.ne_none_iff_exists'.mp fun h => hall ⟨role, h⟩
    obtain ⟨s, hs⟩ := hsome .subject
    obtain ⟨q, hq⟩ := hsome .predicate
    obtain ⟨o, ho⟩ := hsome .object
    have hresolve : d.resolve p = some ⟨s, q, o⟩ :=
      resolve_eq_some.mpr (Role.forall_iff.mpr ⟨hs, hq, ho⟩)
    rw [hnone] at hresolve
    cases hresolve
  · rintro ⟨role, hrole⟩
    by_contra hne
    obtain ⟨pattern, hresolve⟩ := Option.ne_none_iff_exists'.mp hne
    rw [resolve_eq_some.mp hresolve role] at hrole
    cases hrole

/-- The ids that were resolved cover a triple just if the bound terms have its
ids. -/
theorem covers_eq_meets (h : d.resolve p = some pattern) (t : Triple) :
    pattern.covers t = d.meets p t := by
  rw [Bool.eq_iff_iff, Triple.covers_iff_id, meets_iff]
  refine forall_congr' fun role => ?_
  have hrole := resolve_eq_some.mp h role
  cases hterm : p.term role with
  | none =>
      rw [hterm] at hrole
      simp [← Option.some.inj hrole]
  | some term =>
      rw [hterm, resolveTerm_eq_some] at hrole
      simp [hrole]

/-- Where there is nothing to ask for, no triple has the ids either. -/
theorem meets_of_resolve_eq_none (h : d.resolve p = none) (ht : t.Concrete) :
    d.meets p t = false := by
  obtain ⟨role, term, hterm, hid⟩ := resolve_eq_none.mp h
  rw [← Bool.not_eq_true, meets_iff]
  intro hmeets
  rw [hmeets role term hterm] at hid
  rcases hid with hid | hid
  · cases hid
  · exact Triple.concrete_iff_id.mp ht role (Option.some.inj hid)

/-! ## Ids to terms -/

/-- The first role whose id has no term. -/
def missing? (d : Dictionary) (t : Triple) : Option Role :=
  Role.all.find? fun role => (d.termOf role (t.id role)).isNone

theorem term_eq_ok {id : Id} {term : String} : d.term role id = .ok term ↔
    d.termOf role id = some term := by
  unfold Dictionary.term
  cases d.termOf role id <;> simp

theorem term_of_none {id : Id} (h : d.termOf role id = none) :
    d.term role id = .error (.invalidArgument (.unknownId role id)) := by
  rw [term, h]

/-- A triple is translated just into the terms of its ids. -/
theorem translate_eq_ok {u : TermTriple} :
    d.translate t = .ok u ↔
    ∀ role, d.termOf role (t.id role) = some (u.term role) := by
  rw [Role.forall_iff]
  simp only [translate, bind_eq_ok, term_eq_ok]
  constructor
  · rintro ⟨s, hs, q, hq, o, ho, hu⟩
    cases hu
    exact ⟨hs, hq, ho⟩
  · rintro ⟨hs, hq, ho⟩
    exact ⟨u.subject, hs, u.predicate, hq, u.object, ho, rfl⟩

theorem exists_translate
    (h : ∀ role, ∃ term, d.termOf role (t.id role) = some term) :
    ∃ u, d.translate t = .ok u := by
  obtain ⟨s, hs⟩ := h .subject
  obtain ⟨q, hq⟩ := h .predicate
  obtain ⟨o, ho⟩ := h .object
  exact ⟨⟨s, q, o⟩, translate_eq_ok.mpr (Role.forall_iff.mpr ⟨hs, hq, ho⟩)⟩

/-- The translation fails for the first id that has no term. -/
theorem translate_of_missing (h : d.missing? t = some role) :
    d.translate t = .error
      (.invalidArgument (.unknownId role (t.id role))) := by
  unfold missing? Role.all at h
  cases hs : d.termOf .subject t.subject with
  | none =>
      obtain rfl : .subject = role := by simpa [Triple.id, hs] using h
      rw [translate, term_of_none hs]
      rfl
  | some s =>
      rw [translate, term_eq_ok.mpr hs]
      cases hq : d.termOf .predicate t.predicate with
      | none =>
          obtain rfl : .predicate = role := by simpa [Triple.id, hs, hq] using h
          rw [term_of_none hq]
          rfl
      | some q =>
          obtain ⟨ho, rfl⟩ :
            d.termOf .object t.object = none ∧ .object = role := by
            simpa [Triple.id, hs, hq] using h
          rw [term_eq_ok.mpr hq, term_of_none ho]
          rfl

theorem translate_eq_error {e : Error} : d.translate t = .error e ↔
    ∃ role, d.missing? t = some role ∧
      e = .invalidArgument (.unknownId role (t.id role)) := by
  constructor
  · intro herror
    cases hmissing : d.missing? t with
    | none =>
        have hterms : ∀ role, ∃ term, d.termOf role (t.id role) = some term :=
          fun role => by
            have hrole := List.find?_eq_none.mp hmissing role
              (Role.mem_all role)
            exact Option.ne_none_iff_exists'.mp (by simpa using hrole)
        obtain ⟨u, hu⟩ := exists_translate hterms
        cases herror.symm.trans hu
    | some role =>
        refine ⟨role, rfl, ?_⟩
        cases herror.symm.trans (translate_of_missing hmissing)
        rfl
  · rintro ⟨role, hmissing, rfl⟩
    exact translate_of_missing hmissing

/-! ## There and back -/

/-- Every id that a term is known by is taken back to the term. -/
def Inverts (d : Dictionary) : Prop :=
  ∀ role term id, d.idOf role term = some id → d.termOf role id = some term

/-- Every id of the triples has a term that is known by it. -/
def Names (d : Dictionary) (triples : List Triple) : Prop :=
  ∀ t ∈ triples, ∀ role, ∃ term, d.termOf role (t.id role) = some term ∧
    d.idOf role term = some (t.id role)

/-- The dictionary that numbers the terms of each role from 1. -/
def numbering (terms : Role → List String) : Dictionary where
  idOf role term := ((terms role).findIdx? (· == term)).map fun i =>
    (i + 1).toUInt64
  termOf role id := if id = 0 then none else (terms role)[id.toNat - 1]?

theorem inverts_numbering {terms : Role → List String}
    (h : ∀ role, (terms role).length < UInt64.size) :
    (numbering terms).Inverts := by
  intro role term id hid
  obtain ⟨i, hi, rfl⟩ := Option.map_eq_some_iff.mp hid
  obtain ⟨hlt, hterm, -⟩ := List.findIdx?_eq_some_iff_getElem.mp hi
  have hfits : (i + 1).toUInt64.toNat = i + 1 :=
    UInt64.toNat_ofNat_of_lt' (Nat.lt_of_le_of_lt hlt (h role))
  have hne : (i + 1).toUInt64 ≠ 0 := fun hzero => by
    rw [hzero] at hfits
    cases hfits
  show (if (i + 1).toUInt64 = 0 then none
    else (terms role)[(i + 1).toUInt64.toNat - 1]?) = some term
  rw [if_neg hne, hfits, Nat.add_sub_cancel, List.getElem?_eq_getElem hlt,
    beq_iff_eq.mp hterm]

/-- What has the ids of the bound terms is translated into these terms. -/
theorem covers_of_meets (h : d.Inverts) (hmeets : d.meets p t = true)
    {u : TermTriple} (hu : d.translate t = .ok u) : p.covers u = true := by
  rw [TermPattern.covers_iff]
  intro role term hterm
  have hback := h role term _ (meets_iff.mp hmeets role term hterm)
  exact Option.some.inj (hback.symm.trans (translate_eq_ok.mp hu role))

/-- What is translated into the bound terms has their ids, if those are its own. -/
theorem meets_of_covers {triples : List Triple} (h : d.Names triples)
    (ht : t ∈ triples) {u : TermTriple} (hu : d.translate t = .ok u)
    (hcovers : p.covers u = true) : d.meets p t = true := by
  rw [meets_iff]
  intro role term hterm
  obtain ⟨term', hterm', hid⟩ := h t ht role
  rw [TermPattern.covers_iff.mp hcovers role term hterm]
  rwa [Option.some.inj (hterm'.symm.trans (translate_eq_ok.mp hu role))] at hid

/-- Choosing triples by their ids and translating them is choosing among the
translated ones. -/
theorem exists_map_translate (h : d.Inverts) {triples : List Triple}
    (hnames : d.Names triples) (p : TermPattern) : ∃ terms :
      List TermTriple, triples.map d.translate = terms.map .ok ∧
      (triples.filter (d.meets p)).map d.translate =
        (terms.filter p.covers).map .ok := by
  induction triples with
  | nil => exact ⟨[], rfl, rfl⟩
  | cons t triples ih =>
      obtain ⟨terms, hall, hsome⟩ := ih fun t' ht' =>
        hnames t' (List.mem_cons_of_mem _ ht')
      obtain ⟨u, hu⟩ := exists_translate fun role =>
        (hnames t List.mem_cons_self role).imp fun _ hterm => hterm.1
      refine ⟨u :: terms, by rw [List.map_cons, List.map_cons, hu, hall], ?_⟩
      have hsame : d.meets p t = p.covers u := Bool.eq_iff_iff.mpr
        ⟨fun hmeets => covers_of_meets h hmeets hu,
          meets_of_covers hnames List.mem_cons_self hu⟩
      rw [List.filter_cons, List.filter_cons, hsame]
      split
      · rw [List.map_cons, List.map_cons, hu, hsome]
      · exact hsome

end Dictionary

/-! ## Going through a search -/

theorem Cursor.progress_replicate (n k : Nat) :
    progress n (List.replicate k .next) = min k n := by
  induction k with
  | zero => exact (Nat.zero_min n).symm
  | succ k ih =>
      rw [progress] at ih ⊢
      rw [List.replicate_succ', List.foldl_append, ih]
      show min (min k n + 1) n = min (k + 1) n
      omega

/-- Behind `k` items a cursor gives the next of those that going on to the end
gives. -/
theorem Cursor.next_afterAll_replicate (c : Cursor) (k : Nat) :
    (c.planned.afterAll (List.replicate k .next)).next.1 =
      (c.planned.drain.map (·.1))[k]? := by
  rw [(at_afterAll c _).next, progress_replicate, drain_eq_pending,
    List.getElem?_map]
  rcases Nat.lt_or_ge k c.planned.pending.length with hlt | hge
  · rw [Nat.min_eq_left (Nat.le_of_lt hlt)]
  · rw [Nat.min_eq_right hge, List.getElem?_eq_none (Nat.le_refl _),
      List.getElem?_eq_none hge]

namespace TermSearch

/-- The search behind its first `k` items. -/
def after (search : TermSearch) : Nat → TermSearch
  | 0 => search
  | k + 1 => (search.after k).next.2

theorem after_some (d : Dictionary) (ids : Cursor) (k : Nat) :
    after ⟨d, some ids⟩ k =
      ⟨d, some (ids.afterAll (List.replicate k .next))⟩ := by
  induction k with
  | zero => rfl
  | succ k ih =>
      rw [after, ih, List.replicate_succ', Cursor.afterAll, Cursor.afterAll,
        List.foldl_append]
      rfl

theorem after_none (d : Dictionary) (k : Nat) :
    after ⟨d, none⟩ k = ⟨d, none⟩ := by
  induction k with
  | zero => rfl
  | succ k ih =>
      rw [after, ih]
      rfl

end TermSearch

namespace Store

variable {s : Store} {d : Dictionary} {p : TermPattern} {triples : List Triple}

/-- Every item has its place, whether it is a triple or an error, and behind the
last there is nothing. -/
theorem next_searchTerms (s : Store) (d : Dictionary)
    (p : TermPattern) (k : Nat) :
    ((s.searchTerms d p).after k).next.1 = (s.findTerms d p)[k]? := by
  rw [searchTerms, findTerms]
  cases d.resolve p with
  | none =>
      show (TermSearch.after ⟨d, none⟩ k).next.1 = _
      rw [TermSearch.after_none]
      rfl
  | some pattern =>
      have hplanned : (s.search pattern).planned = s.search pattern :=
        Cursor.planned_plan _ _ _
      have hnext := (s.search pattern).next_afterAll_replicate k
      rw [hplanned] at hnext
      show (TermSearch.after ⟨d, some (s.search pattern)⟩ k).next.1 = _
      rw [TermSearch.after_some, List.getElem?_map]
      exact congrArg (Option.map d.translate) hnext

/-- What a search by terms finds in a store of these triples: one item for each
that has the ids of the bound terms, in their order, which is the triple in
terms or the error for the first id that has none. -/
structure FindsTerms (s : Store) (triples : List Triple) (d : Dictionary)
    (p : TermPattern) : Prop where
  unknown : ∀ role term, p.term role = some term → d.idOf role term = none ∨
    d.idOf role term = some 0 →
    s.findTerms d p = []
  found : s.findTerms d p = (triples.filter (d.meets p)).map d.translate
  next : ∀ k, ((s.searchTerms d p).after k).next.1 = (s.findTerms d p)[k]?
  ok : ∀ t u, d.translate t = .ok u ↔
    ∀ role, d.termOf role (t.id role) = some (u.term role)
  error : ∀ t e, d.translate t = .error e ↔
    ∃ role, d.missing? t = some role ∧
      e = .invalidArgument (.unknownId role (t.id role))
  bound : d.Inverts → ∀ u, .ok u ∈ s.findTerms d p → p.covers u = true
  translated : d.Inverts → d.Names triples → ∃ terms : List TermTriple,
    triples.map d.translate = terms.map .ok ∧
    s.findTerms d p = (terms.filter p.covers).map .ok

theorem findTerms_eq
    (hfind : ∀ pattern, s.find pattern = triples.filter pattern.covers)
    (hconcrete : ∀ t ∈ triples, t.Concrete) :
    s.findTerms d p = (triples.filter (d.meets p)).map d.translate := by
  rw [findTerms]
  cases hresolve : d.resolve p with
  | none =>
      have hnone : triples.filter (d.meets p) = [] :=
        List.filter_eq_nil_iff.mpr fun t ht => by
          rw [Dictionary.meets_of_resolve_eq_none hresolve (hconcrete t ht)]
          exact Bool.false_ne_true
      rw [hnone]
      rfl
  | some pattern =>
      dsimp only
      rw [hfind, funext (Dictionary.covers_eq_meets hresolve)]

theorem find_of_build {config : Config}
    (h : (build config triples).result = .ok s) {calls : List Call}
    (hcalls : ∀ x, .attach x ∈ calls → x.Lists s.tree) (pattern : Triple) :
    (s.afterAll calls).find pattern = triples.filter pattern.covers := by
  obtain ⟨hbuild, -, hkeeps⟩ := build_eq_ok h
  have hsound := sound_afterAll
    (hkeeps fun _ _ => PredicateIndex.lists_of_build) hcalls
  have hconsistent := Tree.consistent_of_build hbuild
  have hfindable := (Tree.ascending_of_build hbuild).findable
  have hholds := (Tree.holds_of_build hbuild).2
  rw [← tree_afterAll s calls] at hconsistent hfindable hholds
  rw [find_eq_filter hconsistent hfindable hsound, hholds.toList]

/-- At any time, in any layout and with any dictionary, a search by terms is a
search by ids whose items are translated one by one. -/
theorem findTerms_exact {config : Config}
    (h : (build config triples).result = .ok s) {calls : List Call}
    (hcalls : ∀ x, .attach x ∈ calls → x.Lists s.tree) (d : Dictionary)
    (p : TermPattern) :
    (s.afterAll calls).FindsTerms triples d p := by
  have hconcrete :=
    (Tree.check_iff.mp (Tree.parts_of_build (build_eq_ok h).1).1).2.2
  have hfound :
      (s.afterAll calls).findTerms d p =
        (triples.filter (d.meets p)).map d.translate :=
    findTerms_eq (find_of_build h hcalls) hconcrete
  refine ⟨fun role term hterm hid => ?_, hfound, next_searchTerms _ d p,
    fun _ _ => Dictionary.translate_eq_ok, fun _ _ =>
      Dictionary.translate_eq_error,
    fun hinverts u hu => ?_, fun hinverts hnames => ?_⟩
  · rw [findTerms, Dictionary.resolve_eq_none.mpr ⟨role, term, hterm, hid⟩]
  · rw [hfound] at hu
    obtain ⟨t, ht, htranslate⟩ := List.mem_map.mp hu
    exact Dictionary.covers_of_meets hinverts
      (List.mem_filter.mp ht).2 htranslate
  · rw [hfound]
    exact Dictionary.exists_map_translate hinverts hnames p

/-- A predicate without a term is an error in its place; with a term for it the
search is one among the translated triples. -/
theorem findTerms_exact_short : ∃ s short full,
    (build .standard [⟨1, 1, 1⟩, ⟨1, 2, 2⟩, ⟨2, 1, 1⟩]).result = .ok s ∧
    ((s.afterAll [.ensureIndex]).findTerms short ⟨none, none, none⟩ =
        [.ok ⟨":alice", ":knows", ":bob"⟩,
         .error (.invalidArgument (.unknownId .predicate 2)),
          .ok ⟨":bob", ":knows", ":bob"⟩] ∧
      (((s.afterAll [.ensureIndex]).searchTerms short ⟨none, none, none⟩).after
        2).next.1 =
        some (.ok ⟨":bob", ":knows", ":bob"⟩)) ∧
    full.Inverts ∧ full.Names [⟨1, 1, 1⟩, ⟨1, 2, 2⟩, ⟨2, 1, 1⟩] ∧
    ∃ terms : List TermTriple,
      [⟨1, 1, 1⟩, ⟨1, 2, 2⟩, ⟨2, 1, 1⟩].map full.translate = terms.map .ok ∧
      (s.afterAll [.ensureIndex]).findTerms full ⟨none, some ":knows", none⟩ =
        (terms.filter (TermPattern.covers ⟨none, some ":knows", none⟩)).map
          .ok := by
  have hok :
      ((build .standard [⟨1, 1, 1⟩, ⟨1, 2, 2⟩, ⟨2, 1, 1⟩]).result >>= fun s =>
      .ok s.tree.size).toOption = some 3 := by decide +kernel
  obtain ⟨s, hbuild, -⟩ := bind_eq_ok.mp (toOption_eq_some.mp hok)
  have hown : ∀ x, Call.attach x ∈ [Call.ensureIndex] → x.Lists s.tree :=
    fun x hx => by simp at hx
  let short : Dictionary := .numbering fun
    | .subject => [":alice", ":bob"]
    | .predicate => [":knows"]
    | .object => [":bob", "Alice"]
  let full : Dictionary := .numbering fun
    | .subject => [":alice", ":bob"]
    | .predicate => [":knows", ":name"]
    | .object => [":bob", "Alice"]
  have hinverts : full.Inverts :=
    Dictionary.inverts_numbering fun role => by cases role <;> decide
  have hnames : full.Names [⟨1, 1, 1⟩, ⟨1, 2, 2⟩, ⟨2, 1, 1⟩] := by
    simp only [Dictionary.Names, List.forall_mem_cons, Role.forall_iff]
    exact ⟨⟨⟨_, rfl, rfl⟩, ⟨_, rfl, rfl⟩, ⟨_, rfl, rfl⟩⟩,
      ⟨⟨_, rfl, rfl⟩, ⟨_, rfl, rfl⟩, ⟨_, rfl, rfl⟩⟩,
      ⟨⟨_, rfl, rfl⟩, ⟨_, rfl, rfl⟩, ⟨_, rfl, rfl⟩⟩, fun _ h => by cases h⟩
  have hshort := findTerms_exact hbuild hown short ⟨none, none, none⟩
  have hfull := findTerms_exact hbuild hown full ⟨none, some ":knows", none⟩
  refine ⟨s, short, full, hbuild, ⟨hshort.found, ?_⟩, hinverts, hnames,
    hfull.translated hinverts hnames⟩
  rw [hshort.next, hshort.found]
  rfl

end Store

end TripleStore
