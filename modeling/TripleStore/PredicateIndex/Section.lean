import TripleStore.PredicateIndex.Basic

/-!
# Predicate index sections

A header announces how many ids and positions there are, and the positions follow.
-/

namespace TripleStore.PredicateIndex

open Text.Numeral (decimal)

def header (x : PredicateIndex) : Section.Header :=
  (Section.Header.new .predicateIndex)
    |>.set "predicates" (decimal x.predicates)
    |>.set "entries" (decimal x.size)

def write (x : PredicateIndex) (kind : Checksum) : Emit Unit := do
  x.header.write
  x.positions.write kind

def toBytes (x : PredicateIndex) : Bytes := (x.write .standard).toBytes

/-- The index that takes up what is left of a source. -/
def readWhole (config : Config) : Scan PredicateIndex := do
  let header ← (← Section.Header.read config.strict).require .predicateIndex
  let predicates ← header.parseNat "predicates"
  let entries ← header.parseNat "entries"
  let positions ← Scan.whole .predicateIndex (Adjacency.read config)
  if positions.keys = predicates ∧ positions.size = entries then
    return ⟨positions⟩
  else
    throw (.invalidEncoding
      (.indexCount predicates entries positions.keys positions.size))

/-- The index whose section takes up all of a backing. -/
def ofBacking (config : Config) (backing : Backing) : Outcome PredicateIndex :=
  (Scan.run (readWhole config) (.ofBacking backing)).1

def load (config : Config) (source : Source) : Outcome PredicateIndex := do
  ofBacking config (.ofBytes (← Scan.collect source))

end TripleStore.PredicateIndex
