import TripleStore.Bytes.Source
import TripleStore.Checksum
import TripleStore.Outcome

/-!
# Scans

A scan reads from a source, keeps a running checksum of what it reads, and may
warn. An error leaves the source where the reading stopped.
-/

namespace TripleStore

structure Scan.State where
  source : Source
  running : Running
  warnings : List Warning

abbrev Scan := EStateM Error Scan.State

namespace Scan

variable {α : Type}

def State.ofSource (source : Source) : State := ⟨source, .start .standard, []⟩

def run (act : Scan α) (source : Source) : Outcome α × Source :=
  match EStateM.run act (.ofSource source) with
  | .ok a s => (⟨s.warnings, .ok a⟩, s.source)
  | .error e s => (⟨s.warnings, .error e⟩, s.source)

instance : MonadLift (Except Error) Scan where
  monadLift
    | .ok a => pure a
    | .error e => throw e

def position : Scan Nat := do return (← get).source.position

/-- How many bytes of the backing are left. -/
def left : Scan Nat := do
  let source := (← get).source
  return source.backing.size - source.position

def warn (w : Warning) : Scan Unit :=
  modify fun s => { s with warnings := s.warnings ++ [w] }

/-! ## Reading -/

def read (n : Nat) : Scan Bytes := fun s =>
  match s.source.read n with
  | .ok (got, source) =>
    .ok got { s with source := source, running := s.running.absorb got }
  | .error e => .error e s

/-- Reads call after call until `n` more bytes have come after those in `got`. -/
def readMore (got : Array UInt8) (n : Nat) : Scan Bytes := do
  if _h₀ : n = 0 then
    return got.toList
  else
    let next ← read n
    if _h : next = [] then
      throw .endOfStream
    else
      readMore (got ++ next) (n - next.length)
termination_by n
decreasing_by
  have := List.length_pos_iff.2 _h
  omega

/-- Exactly `n` bytes. -/
def readExact (n : Nat) : Scan Bytes := readMore #[] n

def byte : Scan UInt8 := do
  return (← readExact 1).headD 0

/-- Reads call after call, at most `fuel` times, until nothing comes. -/
def readOn (fuel : Nat) (got : Array UInt8) : Scan Bytes := do
  match fuel with
  | 0 => return got.toList
  | fuel + 1 =>
    let next ← read (← left).succ
    if next = [] then return got.toList else readOn fuel (got ++ next)

/-- Everything up to the end. Each call but the last yields at least one byte,
so one call for each byte left and one for the end are enough. -/
def readAll : Scan Bytes := do
  readOn (← left).succ #[]

/-- Everything that `source` yields. -/
def collect (source : Source) : Outcome Bytes := (run readAll source).1

/-- Runs `act` where it has to use up the source. -/
def whole (kind : Section.Kind) (act : Scan α) : Scan α := do
  let a ← act
  let n ← left
  if n = 0 then return a else throw (.invalidEncoding (.trailingBytes kind n))

/-! ## The running checksum -/

/-- Starts the running checksum anew. -/
def restart (kind : Checksum) : Scan Unit :=
  modify fun s => { s with running := .start kind }

/-- Lets bytes enter the running checksum that were not read. -/
def fold (bytes : Bytes) : Scan Unit :=
  modify fun s => { s with running := s.running.absorb bytes }

def checksum : Scan Nat := do return (← get).running.value

/-- Keeps what `act` reads out of the running checksum. -/
def aside (act : Scan α) : Scan α := fun s =>
  match act s with
  | .ok a s' => .ok a { s' with running := s.running }
  | .error e s' => .error e { s' with running := s.running }

def skip (n : Nat) : Scan Bytes := aside (readExact n)

/-- Reads a trailer and tells whether it is the running checksum. -/
def verify : Scan Bool := do
  let running := (← get).running
  return (← skip running.kind.width) == running.trailer

/-- Reads a trailer. One that does not match is an error if `strict`, else a
warning. -/
def closePart (part : Section.Part) (strict : Bool) : Scan Unit := do
  if ← verify then
    return
  else if strict then
    throw (.checksumMismatch part)
  else
    warn (.checksumMismatch part)

/-! ## Ranges of the backing -/

/-- Passes over `n` bytes of the backing, which the running checksum takes in,
and returns the backing and the position of the first. -/
def range (n : Nat) : Scan (Backing × Nat) := do
  let source := (← get).source
  if source.backing.size < source.position + n then
    throw .endOfStream
  else
    modify fun s => { s with source := s.source.advance n }
    fold (source.backing.slice source.position n)
    return (source.backing, source.position)

end Scan

end TripleStore
