import TripleStore.Tree.Basic

/-!
# Triples sections

A header announces the order, the number of triples and the largest ids. Then
come the middle ids and the minor ids, and reading checks that they are what was
announced.
-/

namespace TripleStore.Tree

open Text.Numeral (decimal)

def header (t : Tree) : Section.Header :=
  (Section.Header.new .triples)
    |>.set "order" t.order.name
    |>.set "triples" (decimal t.size)
    |>.set "max_y" (decimal t.maxMiddle.toNat)
    |>.set "max_z" (decimal t.maxMinor.toNat)

def write (t : Tree) (kind : Checksum) : Emit Unit := do
  t.header.write
  t.middles.write kind
  t.minors.write kind

def toBytes (t : Tree) : Bytes := (t.write .standard).toBytes

/-- What keeps a tree from being the one with `size` triples that was announced. -/
def mismatch? (t : Tree) (size : Nat) : Option FormatFault :=
  let storedMiddle := Sequence.maximum t.middles.sequence.toList
  let storedMinor := Sequence.maximum t.minors.sequence.toList
  if t.size ≠ size then some (.tripleCount size t.size)
  else if t.minors.keys ≠ t.middles.size then
    some (.groupCount t.middles.size t.minors.keys)
  else if t.maxMiddle ≠ storedMiddle ∨ t.maxMinor ≠ storedMinor then
    some (.maxIds t.maxMiddle t.maxMinor storedMiddle storedMinor)
  else none

def read (config : Config) : Scan Tree := do
  let header ← (← Section.Header.read config.strict).require .triples
  let order ← header.parse "order" Order.ofName?
  let size ← header.parseNat "triples"
  let maxMiddle ← header.parseId "max_y"
  let maxMinor ← header.parseId "max_z"
  let middles ← Adjacency.read config
  let minors ← Adjacency.read config
  let tree := { order, middles, minors, maxMiddle, maxMinor }
  match mismatch? tree size with
  | some fault => throw (.invalidEncoding fault)
  | none => return tree

/-- The tree whose section takes up all of a backing. -/
def ofBacking (config : Config) (backing : Backing) : Outcome Tree :=
  (Scan.run (Scan.whole .triples (read config)) (.ofBacking backing)).1

end TripleStore.Tree
