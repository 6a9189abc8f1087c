import TripleStore.Proofs.Tree.Layout

/-!
# Laying out in one pass

Triples can be laid out as they come. Whether an id is the last of its list is
known when the next triple comes, and so the ids are one ahead of the bits that
end their lists, until the last lists are closed (`Draft`). What comes out is
the tree whose bits are told from the whole list at once (`layOut_eq_build`).
-/

namespace TripleStore.Tree

open Bitmap (Builder)

/-- Both levels as far as they are known. -/
structure Draft where
  last : Option Coords
  middles : List Id
  middleBits : Builder
  minors : List Id
  minorBits : Builder

namespace Draft

def empty : Draft := ⟨none, [], .empty, [], .empty⟩

/-- Takes in a triple: its ids, and the bits of those before them. -/
def push (order : Order) (d : Draft) (t : Triple) : Except Error Draft :=
  let c := order.toCoords t
  match fault? order d.last t, d.last with
  | some fault, _ => .error (.construction fault)
  | none, none =>
    .ok ⟨some c, d.middles ++ [c.middle], d.middleBits, d.minors ++ [c.minor],
      d.minorBits⟩
  | none, some l =>
    if c.major ≠ l.major then do
      let middleBits ← d.middleBits.push true
      let minorBits ← d.minorBits.push true
      return ⟨some c, d.middles ++ [c.middle], middleBits,
        d.minors ++ [c.minor], minorBits⟩
    else if c.middle ≠ l.middle then do
      let middleBits ← d.middleBits.push false
      let minorBits ← d.minorBits.push true
      return ⟨some c, d.middles ++ [c.middle], middleBits,
        d.minors ++ [c.minor], minorBits⟩
    else do
      let minorBits ← d.minorBits.push false
      return ⟨some c, d.middles, d.middleBits, d.minors ++ [c.minor], minorBits⟩

/-- Ends the last list of each level, if there is one. -/
def close (d : Draft) : Except Error Draft :=
  match d.last with
  | none => .ok d
  | some _ => do
    let middleBits ← d.middleBits.push true
    let minorBits ← d.minorBits.push true
    return { d with middleBits, minorBits }

def toTree (order : Order) (d : Draft) : Except Error Tree := do
  let middles ← (Adjacency.ofParts d.middleBits.finish
      (.ofList d.middles)).mapError .construction
  let minors ← (Adjacency.ofParts d.minorBits.finish
      (.ofList d.minors)).mapError .construction
  return {
    order, middles, minors
    maxMiddle := Sequence.maximum d.middles
    maxMinor := Sequence.maximum d.minors }

end Draft

/-- The tree of triples that ascend in `order`, in one pass. -/
def layOut (order : Order) (triples : List Triple) : Except Error Tree := do
  let d ← triples.foldlM (Draft.push order) .empty
  (← d.close).toTree order

namespace Draft

variable {d : Draft} {coords : List Coords}

/-- What is in the draft once triples with these coordinates have come. The last
bit of each level is still open. -/
structure Holds (d : Draft) (coords : List Coords) : Prop where
  last : d.last = coords.getLast?
  middles : d.middles = (Runs.lasts occurrence coords).map Coords.middle
  middleBits : Builder.empty.pushAll
    (Runs.ends Coords.major (Runs.lasts occurrence coords)).dropLast =
      .ok d.middleBits
  minors : d.minors = coords.map Coords.minor
  minorBits : Builder.empty.pushAll (Runs.ends occurrence coords).dropLast =
    .ok d.minorBits

theorem holds_empty : empty.Holds [] := ⟨rfl, rfl, rfl, rfl, rfl⟩

section Ends

variable {α κ : Type} [DecidableEq κ] (key : α → κ) {l : List α} {a : α}
  {bits : Builder}
  (h : Builder.empty.pushAll (Runs.ends key (l ++ [a])).dropLast = .ok bits)
  (hroom : l.length < maxBits)

include h hroom

/-- The bit of an element is pushed when the next one comes. -/
theorem exists_push_end (b : α) :
    ∃ bits', bits.push (decide (key a ≠ key b)) = .ok bits' ∧
    Builder.empty.pushAll (Runs.ends key (l ++ [a, b])).dropLast =
      .ok bits' := by
  obtain ⟨known, hends, hmore⟩ := Runs.ends_concat key l a b
  obtain ⟨bits', hpush, hall⟩ := Builder.exists_push h (decide (key a ≠ key b))
    (by simpa [Runs.length_ends] using hroom)
  refine ⟨bits', hpush, ?_⟩
  rw [hends, List.dropLast_concat] at hall
  rw [hmore, List.append_cons, List.dropLast_concat]
  exact hall

/-- The bit of the last element is pushed in the end. -/
theorem exists_push_last : ∃ bits', bits.push true = .ok bits' ∧
    Builder.empty.pushAll (Runs.ends key (l ++ [a])) = .ok bits' := by
  obtain ⟨known, hends, -⟩ := Runs.ends_concat key l a a
  obtain ⟨bits', hpush, hall⟩ :=
    Builder.exists_push h true (by simpa [Runs.length_ends] using hroom)
  refine ⟨bits', hpush, ?_⟩
  rw [hends, List.dropLast_concat] at hall
  rw [hends]
  exact hall

end Ends

section Push

variable {order : Order} {t : Triple} {l : Coords}
  {middleBits minorBits : Builder}

theorem push_first (hfault : fault? order d.last t = none)
    (hlast : d.last = none) :
    d.push order t = .ok ⟨some (order.toCoords t),
      d.middles ++ [(order.toCoords t).middle], d.middleBits,
      d.minors ++ [(order.toCoords t).minor], d.minorBits⟩ := by
  rw [hlast] at hfault
  simp only [push, hlast, hfault]

/-- A triple of another occurrence ends the minor ids, and the middle ids if its
major id is new. -/
theorem push_other (hfault : fault? order d.last t = none)
    (hlast : d.last = some l)
    (hother : occurrence l ≠ occurrence (order.toCoords t))
    (hmiddle : d.middleBits.push (decide (l.major ≠ (order.toCoords t).major)) =
      .ok middleBits)
    (hminor : d.minorBits.push true = .ok minorBits) :
    d.push order t = .ok ⟨some (order.toCoords t),
      d.middles ++ [(order.toCoords t).middle], middleBits,
      d.minors ++ [(order.toCoords t).minor], minorBits⟩ := by
  rw [hlast] at hfault
  simp only [push, hlast, hfault]
  by_cases hmajor : (order.toCoords t).major = l.major
  · have hnew : (order.toCoords t).middle ≠ l.middle := fun hsame =>
      hother (by rw [occurrence, occurrence, hmajor, hsame])
    rw [decide_eq_false (not_not.mpr hmajor.symm)] at hmiddle
    rw [if_neg (not_not.mpr hmajor), if_pos hnew, hmiddle, hminor]
    rfl
  · rw [decide_eq_true (Ne.symm hmajor)] at hmiddle
    rw [if_pos hmajor, hmiddle, hminor]
    rfl

/-- A triple of the same occurrence only adds a minor id. -/
theorem push_same (hfault : fault? order d.last t = none)
    (hlast : d.last = some l)
    (hsame : occurrence l = occurrence (order.toCoords t))
    (hminor : d.minorBits.push false = .ok minorBits) :
    d.push order t = .ok ⟨some (order.toCoords t), d.middles, d.middleBits,
      d.minors ++ [(order.toCoords t).minor], minorBits⟩ := by
  rw [hlast] at hfault
  obtain ⟨hmajor, hmiddle⟩ := Prod.mk.injEq .. ▸ hsame
  simp only [push, hlast, hfault]
  rw [if_neg (not_not.mpr hmajor.symm), if_neg (not_not.mpr hmiddle.symm), hminor]
  rfl

theorem Holds.push (h : d.Holds coords) (hfault : fault? order d.last t = none)
    (hroom : coords.length < maxBits) :
    ∃ d', d.push order t = .ok d' ∧
      d'.Holds (coords ++ [order.toCoords t]) := by
  have hlast := h.last
  cases coords using List.reverseRecOn with
  | nil =>
      refine ⟨_, push_first hfault hlast, rfl, ?_, h.middleBits, ?_,
        h.minorBits⟩
      · rw [h.middles]
        rfl
      · rw [h.minors]
        rfl
  | append_singleton before l =>
      generalize hc : order.toCoords t = c
      rw [List.getLast?_concat] at hlast
      have hbefore : before.length < maxBits :=
        Nat.lt_of_succ_lt (by simpa using hroom)
      obtain ⟨rest, hlasts, hmore⟩ := Runs.lasts_concat occurrence before l c
      have hmiddles := h.middles
      have hmiddleBits := h.middleBits
      rw [hlasts] at hmiddles hmiddleBits
      obtain ⟨minorBits, hminor, hminorBits⟩ :=
        exists_push_end occurrence h.minorBits hbefore c
      have hminors :
          d.minors ++ [c.minor] = (before ++ [l, c]).map Coords.minor := by
            simp [h.minors]
      rw [← List.append_cons]
      by_cases hsame : occurrence l = occurrence c
      · obtain ⟨hsameMajor, hsameMiddle⟩ := Prod.mk.injEq .. ▸ hsame
        rw [decide_eq_false (not_not.mpr hsame)] at hminor
        rw [if_pos hsame] at hmore
        subst hc
        refine ⟨_, push_same hfault hlast hsame hminor, by simp, ?_, ?_,
          hminors, hminorBits⟩
        · rw [hmore, hmiddles, List.map_append, List.map_append,
            List.map_singleton, List.map_singleton, hsameMiddle]
        · -- the occurrence keeps its major id, and so the same middle ids are
          -- the last
          rw [hmore, ← Runs.ends_map, List.map_append, List.map_singleton,
            ← hsameMajor, ← List.map_singleton (f := Coords.major),
            ← List.map_append, Runs.ends_map]
          exact hmiddleBits
      · obtain ⟨middleBits, hmiddle, hmiddleBits⟩ :=
          exists_push_end Coords.major hmiddleBits
          (Nat.lt_of_le_of_lt (Runs.length_le_of_lasts hlasts) hbefore) c
        rw [decide_eq_true hsame] at hminor
        rw [if_neg hsame, ← List.append_cons] at hmore
        subst hc
        refine ⟨_, push_other hfault hlast hsame hmiddle hminor, by simp, ?_,
          ?_, hminors, hminorBits⟩
        · rw [hmore, hmiddles]
          simp
        · rw [hmore]
          exact hmiddleBits

end Push

/-- Triples that pass the check are taken in, and others are refused for the
same fault. -/
theorem Holds.foldlM_push {order : Order} {triples : List Triple}
    (h : d.Holds coords) (hroom : coords.length + triples.length ≤ maxBits) :
    (check order d.last triples = .ok () ∧
      ∃ d', triples.foldlM (Draft.push order) d = .ok d' ∧
      d'.Holds (coords ++ triples.map order.toCoords)) ∨
    ∃ e, check order d.last triples = .error e ∧
      triples.foldlM (Draft.push order) d = .error e := by
  induction triples generalizing d coords with
  | nil => exact .inl ⟨rfl, d, rfl, by simpa using h⟩
  | cons t ts ih =>
      rw [List.length_cons] at hroom
      cases hfault : fault? order d.last t with
      | some fault =>
          refine .inr ⟨.construction fault, by rw [check, hfault], ?_⟩
          rw [List.foldlM_cons, Draft.push, hfault]
          rfl
      | none =>
          obtain ⟨d', hpush, hd'⟩ := h.push hfault (by omega)
          have hlast : d'.last = some (order.toCoords t) := by
            rw [hd'.last, List.getLast?_concat]
          have hmore := ih hd'
            (by rw [List.length_append, List.length_singleton]; omega)
          rw [hlast, ← List.append_cons, ← List.map_cons] at hmore
          rw [check, hfault, List.foldlM_cons, hpush]
          exact hmore

theorem level_of_pushAll {bits : List Bool} {values : List UInt64} {b : Builder}
    (h : Builder.empty.pushAll bits = .ok b) :
    level bits values = (Adjacency.ofParts b.finish (.ofList values)).mapError
      .construction := by
  rw [level, Bitmap.ofBits, h]
  rfl

/-- When the last lists are closed, the bits of both levels are those of the
whole list. -/
theorem Holds.close (h : d.Holds coords) (hroom : coords.length ≤ maxBits) :
    ∃ d', d.close = .ok d' ∧ d'.middles = d.middles ∧ d'.minors = d.minors ∧
      Builder.empty.pushAll
        (Runs.ends Coords.major (Runs.lasts occurrence coords)) =
          .ok d'.middleBits ∧
      Builder.empty.pushAll (Runs.ends occurrence coords) =
        .ok d'.minorBits := by
  have hlast := h.last
  cases coords using List.reverseRecOn with
  | nil =>
      refine ⟨d, ?_, rfl, rfl, h.middleBits, h.minorBits⟩
      rw [Draft.close, hlast]
      rfl
  | append_singleton before l =>
      rw [List.getLast?_concat] at hlast
      have hbefore : before.length < maxBits :=
        Nat.lt_of_succ_le (by simpa using hroom)
      obtain ⟨rest, hlasts, -⟩ := Runs.lasts_concat occurrence before l l
      have hmiddleBits := h.middleBits
      rw [hlasts] at hmiddleBits ⊢
      obtain ⟨middleBits, hmiddle, hmiddleBits⟩ :=
        exists_push_last Coords.major hmiddleBits
        (Nat.lt_of_le_of_lt (Runs.length_le_of_lasts hlasts) hbefore)
      obtain ⟨minorBits, hminor, hminorBits⟩ :=
        exists_push_last occurrence h.minorBits hbefore
      refine ⟨{ d with middleBits, minorBits }, ?_, rfl, rfl,
        hmiddleBits, hminorBits⟩
      rw [Draft.close, hlast]
      dsimp only
      rw [hmiddle, hminor]
      rfl

end Draft

/-- One pass gives the same tree, or the same fault. -/
theorem layOut_eq_build {order : Order} {triples : List Triple}
    (hroom : triples.length ≤ maxBits) :
    layOut order triples = build order triples := by
  rcases Draft.holds_empty.foldlM_push (by simpa using hroom) with
    ⟨hcheck, d, hfold, hd⟩ | ⟨e, hcheck, hfold⟩
  · obtain ⟨d', hclose, hmiddles, hminors, hmiddleBits, hminorBits⟩ :=
      hd.close (by simpa using hroom)
    rw [List.nil_append] at hd hmiddleBits hminorBits
    rw [layOut, hfold, build, show check order none triples = _ from hcheck]
    dsimp only [bind, Except.bind]
    rw [hclose, Draft.level_of_pushAll hmiddleBits,
      Draft.level_of_pushAll hminorBits]
    dsimp only
    rw [Draft.toTree, hmiddles, hminors, hd.middles, hd.minors]
    rfl
  · rw [layOut, hfold, build, show check order none triples = _ from hcheck]
    rfl

end TripleStore.Tree
