import TripleStore.Order.Basic
import TripleStore.Section.Kind
import TripleStore.Text.Quoted

/-!
# Errors and warnings

An error is a cause. Its class says what went wrong in the large and its fault
says what exactly; `Error.message` is the only place that words them.
-/

namespace TripleStore

/-- Why a structure cannot be built from what was given. -/
inductive BuildFault where
  | tooManyBits (limit : Nat)
  | tooFewWords (words bits : Nat)
  | emptyGroup (key : Nat)
  | unequalParts (bits values : Nat)
  | unterminated
  | zeroId (triple : Triple)
  | firstMajor (major : Id)
  | outOfOrder (triple : Triple) (order : Order)
  | majorGap (before after : Id)
  | tooManyPredicates (predicates occurrences : Nat)
  | foreignPredicate (predicate : Id) (position predicates : Nat)
  | absentPredicate (predicate : Nat)
deriving DecidableEq

/-- Why a caller's argument is refused. -/
inductive ArgumentFault where
  | negative (value : Int)
  | sequenceWidth (width : Nat)
  | indexShape (predicates occurrences : Nat) (maxMiddle : Id) (middles : Nat)
  | staleOccurrence (predicate : Nat) (position : Id)
  | indexPresent
  | unknownId (role : Role) (id : Id)
deriving DecidableEq

/-- Why stored bytes or texts are not what the format asks for. -/
inductive FormatFault where
  | vbyteOverflow (bits : Nat)
  | unknownChecksum (name : String)
  | badMagic
  | unknownKind (tag : UInt8)
  | unsupportedVersion (kind : Section.Kind) (version : UInt8)
  | longProperty (size : Nat)
  | propertyNotText
  | missingProperty (kind : Section.Kind) (key : String)
  | malformedProperty (kind : Section.Kind) (key raw : String)
  | unexpectedKind (expected found : Section.Kind)
  | bitmapSize (bits : Nat)
  | sequenceWidth (width : Nat)
  | sequenceSize (values : Nat)
  | trailingBytes (kind : Section.Kind) (count : Nat)
  | unknownOrderTag (tag : UInt8)
  | unknownOrder (name : String)
  | adjacency (fault : BuildFault)
  | tripleCount (announced found : Nat)
  | groupCount (occurrences groups : Nat)
  | maxIds (announcedMiddle announcedMinor storedMiddle storedMinor : Id)
  | indexCount (predicates entries foundPredicates foundEntries : Nat)
deriving DecidableEq

/-- What a device reports. -/
inductive DeviceFault where
  | failed
  | full
  | noSuchFile
deriving DecidableEq

inductive Error where
  | outOfRange (index size : Nat)
  | valueTooLarge (value : UInt64) (width : Nat)
  | construction (fault : BuildFault)
  | invalidArgument (fault : ArgumentFault)
  | invalidEncoding (fault : FormatFault)
  | endOfStream
  | checksumMismatch (part : Section.Part)
  | readOnly
  | io (fault : DeviceFault)
  /-- Something is counted beyond what a word holds. No caller sees it: the
  program stops. -/
  | overflow
deriving DecidableEq

open Text (quoted)

def BuildFault.message : BuildFault → String
  | tooManyBits limit => s!"bitmap exceeds {limit} bits"
  | tooFewWords words bits => s!"{words} words cannot hold {bits} bits"
  | emptyGroup key => s!"key {key} has no values"
  | unequalParts bits values =>
    s!"bitmap has {bits} bits but sequence has {values} values"
  | unterminated => "last value is not terminated by a set bit"
  | zeroId triple => s!"triple {triple.describe} has a zero id"
  | firstMajor major => s!"first major id is {major}, expected 1"
  | outOfOrder triple order =>
    s!"triple {triple.describe} is out of {order.name} order"
  | majorGap before after =>
    s!"major ids must be correlative, {before} is followed by {after}"
  | tooManyPredicates predicates occurrences =>
    s!"{predicates} predicates cannot all occur in {occurrences} y occurrences"
  | foreignPredicate predicate position predicates =>
    s!"predicate {predicate} at position {position} is outside 1..={predicates}"
  | absentPredicate predicate => s!"predicate {predicate} has no occurrences"

def ArgumentFault.message : ArgumentFault → String
  | negative value => s!"cannot vbyte-encode negative value {value}"
  | sequenceWidth width => s!"sequence width {width} exceeds 64 bits"
  | indexShape predicates occurrences maxMiddle middles =>
    s!"predicate index covers {predicates} predicates and {occurrences} occurrences, " ++
      s!"triples have {maxMiddle} and {middles}"
  | staleOccurrence predicate position =>
    s!"predicate index maps {predicate} to position {position}, which holds another id"
  | indexPresent => "a predicate index is already present"
  | unknownId role id => s!"{role.name} id {id} is missing from the dictionary"

def FormatFault.message : FormatFault → String
  | vbyteOverflow bits => s!"vbyte value exceeds {bits} bits"
  | unknownChecksum name => s!"unknown checksum kind {quoted name}"
  | badMagic => "bad section magic"
  | unknownKind tag => s!"unknown section kind {tag}"
  | unsupportedVersion kind version =>
    s!"unsupported {kind.name} version {version}"
  | longProperty size => s!"header property of {size} bytes"
  | propertyNotText => "header property is not utf-8"
  | missingProperty kind key =>
    s!"{kind.name} header is missing property {quoted key}"
  | malformedProperty kind key raw =>
    s!"{kind.name} header has malformed property {key}={quoted raw}"
  | unexpectedKind expected found =>
    s!"expected {expected.name} section, found {found.name}"
  | bitmapSize bits => s!"bitmap of {bits} bits"
  | sequenceWidth width => s!"sequence width {width}"
  | sequenceSize values => s!"sequence of {values} values"
  | trailingBytes .triples count => s!"{count} trailing bytes after triples"
  | trailingBytes kind _ => s!"trailing bytes after {kind.name}"
  | unknownOrderTag tag => s!"unknown triple order {tag}"
  | unknownOrder name => s!"unknown triple order {quoted name}"
  | adjacency fault => s!"adjacency list: construction failed: {fault.message}"
  | tripleCount announced found =>
    s!"header announces {announced} triples, found {found}"
  | groupCount occurrences groups =>
    s!"{occurrences} y occurrences but {groups} object groups"
  | maxIds announcedMiddle announcedMinor storedMiddle storedMinor =>
    s!"header announces max ids {announcedMiddle}/{announcedMinor}, " ++
      s!"payload holds {storedMiddle}/{storedMinor}"
  | indexCount predicates entries foundPredicates foundEntries =>
    s!"predicate index header announces {predicates}/{entries}, " ++
      s!"found {foundPredicates}/{foundEntries}"

def DeviceFault.message : DeviceFault → String
  | failed => "device failure"
  | full => "failed to write whole buffer"
  | noSuchFile => "No such file or directory (os error 2)"

def Error.message : Error → String
  | outOfRange index size => s!"index out of range: {index} (len {size})"
  | valueTooLarge value width => s!"value {value} does not fit in {width} bits"
  | construction fault => s!"construction failed: {fault.message}"
  | invalidArgument fault => s!"invalid argument: {fault.message}"
  | invalidEncoding fault => s!"invalid encoding: {fault.message}"
  | endOfStream => "unexpected end of stream"
  | checksumMismatch part => s!"checksum mismatch in {part.name} section"
  | readOnly => "storage is read-only"
  | io fault => s!"io error: {fault.message}"
  | overflow => "attempt to add with overflow"

/-- What an operation reports although it goes on. -/
inductive Warning where
  | checksumMismatch (part : Section.Part)
  | indexUnavailable (error : Error)
deriving DecidableEq

def Warning.message : Warning → String
  | checksumMismatch part =>
    s!"checksum mismatch in {part.name} section, continuing"
  | indexUnavailable error =>
    s!"predicate index unavailable, falling back to scans: {error.message}"

end TripleStore
