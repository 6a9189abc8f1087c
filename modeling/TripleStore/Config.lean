import TripleStore.Bytes.Backing
import TripleStore.Checksum

/-!
# Configuration

What a caller chooses when a store is built, loaded or saved.
-/

namespace TripleStore

/-- Whether stored words are copied or stay in their backing. -/
inductive LoadMode where
  | loaded | mapped
deriving DecidableEq

namespace LoadMode

def name : LoadMode → String
  | loaded => "Loaded"
  | mapped => "Mapped"

/-- Where the bytes of a file end up when it is opened. -/
def residence : LoadMode → Residence
  | loaded => .heap
  | mapped => .mapped

end LoadMode

/-- When the predicate index is built: on the first query that can use it,
together with the store, or never. -/
inductive IndexPolicy where
  | lazy | eager | disabled
deriving DecidableEq

def IndexPolicy.name : IndexPolicy → String
  | lazy => "Lazy"
  | eager => "Eager"
  | disabled => "Disabled"

structure Config where
  order : Order
  loadMode : LoadMode
  indexPolicy : IndexPolicy
  checksum : Checksum
  /-- A checksum that does not match ends the loading. -/
  strict : Bool

namespace Config

def standard : Config := ⟨.spo, .loaded, .lazy, .standard, true⟩

def describe (c : Config) : String :=
  Text.record "Config"
    [("order", c.order.name), ("load_mode", c.loadMode.name),
     ("predicate_index", c.indexPolicy.name),
     ("checksum", c.checksum.name.capitalize),
     ("strict_checksums", Text.truth c.strict)]

end Config

end TripleStore
