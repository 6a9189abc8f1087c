/-!
# Kinds of sections

Everything stored on disk is a section: a header that names the kind, then a
payload.
-/

namespace TripleStore.Section

inductive Kind where
  | bitmap | sequence | triples | predicateIndex
deriving DecidableEq

namespace Kind

def all : List Kind := [bitmap, sequence, triples, predicateIndex]

def tag : Kind → UInt8
  | bitmap => 1
  | sequence => 2
  | triples => 3
  | predicateIndex => 4

def ofTag? (tag : UInt8) : Option Kind := all.find? (·.tag == tag)

def name : Kind → String
  | bitmap => "bitmap"
  | sequence => "sequence"
  | triples => "triples"
  | predicateIndex => "predicate index"

def describe : Kind → String
  | bitmap => "Bitmap"
  | sequence => "Sequence"
  | triples => "Triples"
  | predicateIndex => "PredicateIndex"

theorem ofTag?_tag (kind : Kind) : ofTag? kind.tag = some kind := by
  cases kind <;> rfl

end Kind

/-- A stretch of a section that ends in a checksum of its own. -/
inductive Part where
  | header | bitmap | sequence
deriving DecidableEq

def Part.name : Part → String
  | header => "header"
  | bitmap => "bitmap"
  | sequence => "sequence"

end TripleStore.Section
