import TripleStore.Bytes.Sink
import TripleStore.Checksum

/-!
# Emissions

An emission writes to a sink and keeps a running checksum of what the sink took.
A piece is offered until all of it is taken; a call that takes nothing fails the
emission.
-/

namespace TripleStore

structure Emit.State where
  sink : Sink
  running : Running

abbrev Emit := EStateM Error Emit.State

namespace Emit

def State.ofSink (sink : Sink) : State := ⟨sink, .start .standard⟩

/-- Offers `bytes` once and returns how many were taken. -/
def write (bytes : Bytes) : Emit Nat
  | ⟨sink, running⟩ =>
    let (n, sink) := sink.offer bytes
    .ok n ⟨sink, running.absorb (bytes.take n)⟩

def writeAll (bytes : Bytes) : Emit Unit := do
  if _h₀ : bytes = [] then
    return
  else
    let n ← write bytes
    if _h : n = 0 then
      throw (.io .full)
    else
      writeAll (bytes.drop n)
termination_by bytes.length
decreasing_by
  have := List.length_pos_iff.2 _h₀
  simp only [List.length_drop]
  omega

/-- Starts the running checksum anew. -/
def restart (kind : Checksum) : Emit Unit :=
  modify fun s => { s with running := .start kind }

/-- Writes the running checksum. -/
def trailer : Emit Unit := do
  writeAll (← get).running.trailer

/-- What an emission leaves in a sink, and the error that stopped it, if any. -/
def run (act : Emit Unit) (sink : Sink) : Except Error Unit × Sink :=
  match EStateM.run act (.ofSink sink) with
  | .ok _ s => (.ok (), s.sink)
  | .error e s => (.error e, s.sink)

/-- All that an emission writes. -/
def toBytes (act : Emit Unit) : Bytes := (run act .unlimited).2.toBytes

end Emit

end TripleStore
