import TripleStore.Cursor
import TripleStore.Tree.Section

/-!
# Stores

A store is a tree of triples with a place for a predicate index. The index comes
in by itself, when the policy asks for it, or from outside; once it is in, or
has turned out not to exist, that stays. Whether it is there never changes what
a search finds.
-/

namespace TripleStore

inductive IndexCell where
  | unset
  /-- An index was to be built and does not exist. -/
  | unavailable
  | ready (index : PredicateIndex)

structure Store where
  tree : Tree
  policy : IndexPolicy
  cell : IndexCell

namespace Store

def index? (s : Store) : Option PredicateIndex :=
  match s.cell with
  | .ready index => some index
  | _ => none

/-! ## The index -/

/-- Builds the index unless that was done before. -/
def ensureIndex (s : Store) : Store × List Warning :=
  match s.cell with
  | .unset =>
    match PredicateIndex.build s.tree with
    | .ok index => ({ s with cell := .ready index }, [])
    | .error e => ({ s with cell := .unavailable }, [.indexUnavailable e])
  | _ => (s, [])

/-- Takes an index from outside. It has to be one of this tree, and the place
for it has to be free. -/
def attach (s : Store) (index : PredicateIndex) : Except Error Store :=
  match index.conflict? s.tree with
  | some fault => .error (.invalidArgument fault)
  | none =>
    match s.cell with
    | .unset => .ok { s with cell := .ready index }
    | _ => .error (.invalidArgument .indexPresent)

def applyPolicy (s : Store) : Outcome Store :=
  if s.policy = .eager then ⟨s.ensureIndex.2, .ok s.ensureIndex.1⟩ else .ok s

/-! ## Building and loading -/

def ofTree (tree : Tree) (policy : IndexPolicy) : Store :=
  ⟨tree, policy, .unset⟩

def build (config : Config) (triples : List Triple) : Outcome Store := do
  (ofTree (← Tree.build config.order triples) config.indexPolicy).applyPolicy

def ofBacking (config : Config) (backing : Backing) : Outcome Store := do
  (ofTree (← Tree.ofBacking config backing) config.indexPolicy).applyPolicy

def ofBytes (config : Config) (bytes : Bytes) : Outcome Store :=
  ofBacking config (.ofBytes bytes)

def load (config : Config) (source : Source) : Outcome Store := do
  ofBytes config (← Scan.collect source)

/-! ## Searching -/

/-- The pattern can be searched for through an index. -/
def usesIndex (s : Store) (pattern : Triple) : Bool :=
  let wanted := s.tree.order.toCoords pattern
  !s.tree.outOfReach wanted && wanted.major == 0 && wanted.middle != 0

/-- Builds the index if the policy allows it and the pattern can use it. -/
def prepare (s : Store) (pattern : Triple) : Store × List Warning :=
  if s.policy ≠ .disabled ∧ s.usesIndex pattern then s.ensureIndex else (s, [])

def search (s : Store) (pattern : Triple) : Cursor :=
  Cursor.plan s.tree (s.tree.order.toCoords pattern)
    (s.prepare pattern).1.index?

/-- All triples that match a pattern. -/
def find (s : Store) (pattern : Triple) : List Triple :=
  (s.search pattern).drain.map (·.1)

def contains (s : Store) (t : Triple) : Bool :=
  !(s.tree.order.toCoords t).hasZero && (s.search t).next.1.isSome

def describe (s : Store) : String :=
  Text.record "BitmapTriples"
    [("order", s.tree.order.name), ("triples", toString s.tree.size),
     ("subjects", s.tree.middles.describe), ("objects", s.tree.minors.describe),
     ("predicate_index",
      match s.index? with
      | some index => "Some(" ++ index.describe ++ ")"
      | none => "None")]

end Store

end TripleStore
