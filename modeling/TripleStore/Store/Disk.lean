import TripleStore.PredicateIndex.Section
import TripleStore.Store.Basic

/-!
# Stores on disk

A store lies in a main file. If it has a predicate index when it is saved, the
index goes into a second file beside it, and opening attaches whatever index
lies there.
-/

namespace TripleStore

/-- The contents of the main file and of the one beside it. -/
structure Disk where
  main : Option Bytes
  sidecar : Option Bytes

namespace Disk

def empty : Disk := ⟨none, none⟩

/-- The path of the file beside the main file. -/
def sidecarPath (path : String) : String := path ++ ".pidx"

/-- A file's bytes, on the heap or mapped. -/
def openFile (mode : LoadMode) (bytes : Bytes) : Backing :=
  ⟨bytes.toArray, mode.residence⟩

/-- Writes the main file, and the one beside it if the store has an index. -/
def save (d : Disk) (s : Store) (config : Config) : Disk where
  main := some (s.tree.write config.checksum).toBytes
  sidecar :=
    match s.index? with
    | some index => some (index.write config.checksum).toBytes
    | none => d.sidecar

/-- Opens the main file and attaches the index beside it. -/
def load (d : Disk) (config : Config) : Outcome Store := do
  let some main := d.main | throw (.io .noSuchFile)
  let tree ← Tree.ofBacking config (openFile config.loadMode main)
  let store := Store.ofTree tree config.indexPolicy
  match d.sidecar with
  | none => store.applyPolicy
  | some sidecar =>
    let index ← PredicateIndex.ofBacking config
        (openFile config.loadMode sidecar)
    (← store.attach index).applyPolicy

end Disk

end TripleStore
