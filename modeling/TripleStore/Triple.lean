import TripleStore.Text.Record

/-!
# Triples

A triple names its subject, predicate and object by ids, which start at 1. In a
pattern the id 0 stands for "any".
-/

namespace TripleStore

abbrev Id := UInt64

/-- The three places of a triple. -/
inductive Role where
  | subject | predicate | object
deriving DecidableEq

def Role.name : Role → String
  | .subject => "subject"
  | .predicate => "predicate"
  | .object => "object"

structure Triple where
  subject : Id
  predicate : Id
  object : Id
deriving DecidableEq

namespace Triple

/-- The pattern that covers every triple. -/
def any : Triple := ⟨0, 0, 0⟩

/-- The pattern `p` covers `t`: every component that `p` binds agrees. -/
def covers (p t : Triple) : Bool :=
  (p.subject == 0 || p.subject == t.subject) &&
  (p.predicate == 0 || p.predicate == t.predicate) &&
  (p.object == 0 || p.object == t.object)

def describe (t : Triple) : String :=
  Text.record "TripleId"
    [("subject", toString t.subject), ("predicate", toString t.predicate),
     ("object", toString t.object)]

/-- Triples are compared by subject, then predicate, then object. -/
instance : Ord Triple where
  compare a b :=
    (compare a.subject b.subject).then
      ((compare a.predicate b.predicate).then (compare a.object b.object))

end Triple

end TripleStore
