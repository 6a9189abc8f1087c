import TripleStore.Bytes.LittleEndian

/-!
# Sinks

Bytes go into a sink call by call. How many of those offered a call takes is the
sink's choice, and it takes them from the front.
-/

namespace TripleStore

structure Sink where
  written : Array UInt8
  calls : Nat
  /-- How many bytes a call takes, by the number of calls before it, of bytes
  written so far and of bytes offered; never more than are offered. -/
  takes : Nat → Nat → Nat → Nat

namespace Sink

/-- A sink that takes everything. -/
def unlimited : Sink := ⟨#[], 0, fun _ _ offered => offered⟩

/-- A sink with room for `n` bytes. -/
def limited (n : Nat) : Sink := ⟨#[], 0, fun _ written _ => n - written⟩

def toBytes (s : Sink) : Bytes := s.written.toList

/-- The sink after a call that offers `bytes`, and how many of them it took. -/
def offer (s : Sink) (bytes : Bytes) : Nat × Sink :=
  match s with
  | ⟨written, calls, takes⟩ =>
    let n := min bytes.length (takes calls written.size bytes.length)
    (n, ⟨written ++ bytes.take n, calls + 1, takes⟩)

end Sink

end TripleStore
