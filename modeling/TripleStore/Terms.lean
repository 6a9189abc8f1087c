import TripleStore.Store.Basic

/-!
# Searching by terms

A store knows ids only. A dictionary gives the id of a term and the term of an
id, for each role on its own; with it a pattern of terms is searched for and
what is found is translated back. A triple that cannot be translated does not
stop the search.
-/

namespace TripleStore

structure Dictionary where
  idOf : Role → String → Option Id
  termOf : Role → Id → Option String

/-- A pattern of terms; a missing term stands for any. -/
structure TermPattern where
  subject : Option String
  predicate : Option String
  object : Option String

structure TermTriple where
  subject : String
  predicate : String
  object : String
deriving DecidableEq

namespace Dictionary

variable (d : Dictionary)

/-- The id to ask for. A term that is unknown, or known as 0, has none. -/
def resolveTerm (role : Role) : Option String → Option Id
  | none => some 0
  | some term => (d.idOf role term).filter (· ≠ 0)

def resolve (p : TermPattern) : Option Triple := do
  return {
    subject := ← d.resolveTerm .subject p.subject
    predicate := ← d.resolveTerm .predicate p.predicate
    object := ← d.resolveTerm .object p.object }

def term (role : Role) (id : Id) : Except Error String :=
  match d.termOf role id with
  | some term => .ok term
  | none => .error (.invalidArgument (.unknownId role id))

def translate (t : Triple) : Except Error TermTriple := do
  return {
    subject := ← d.term .subject t.subject
    predicate := ← d.term .predicate t.predicate
    object := ← d.term .object t.object }

end Dictionary

/-- A search for a pattern of terms. It has no ids to go through if a bound term
has none. -/
structure TermSearch where
  dictionary : Dictionary
  ids : Option Cursor

/-- The next triple, translated or with the error that kept it from being, and
the search behind it. -/
def TermSearch.next (search : TermSearch) :
    Option (Except Error TermTriple) × TermSearch :=
  match search.ids with
  | some ids =>
    (ids.next.1.map search.dictionary.translate,
      { search with ids := some ids.next.2 })
  | none => (none, search)

namespace Store

/-- Readies the store for a pattern of terms. -/
def prepareTerms (s : Store) (d : Dictionary) (p : TermPattern) :
    Store × List Warning :=
  match d.resolve p with
  | some pattern => s.prepare pattern
  | none => (s, [])

def searchTerms (s : Store) (d : Dictionary) (p : TermPattern) : TermSearch :=
  ⟨d, (d.resolve p).map s.search⟩

/-- All triples that match a pattern of terms, each translated or with the error
that kept it from being. -/
def findTerms (s : Store) (d : Dictionary) (p : TermPattern) :
    List (Except Error TermTriple) :=
  match d.resolve p with
  | some pattern => (s.find pattern).map d.translate
  | none => []

end Store

end TripleStore
