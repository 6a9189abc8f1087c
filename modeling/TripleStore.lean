import TripleStore.Order.Parse
import TripleStore.Proofs.Adjacency.Partition
import TripleStore.Proofs.Bitmap.Counting
import TripleStore.Proofs.Bitmap.Determined
import TripleStore.Proofs.Bitmap.Indexing
import TripleStore.Proofs.Bytes.Covers
import TripleStore.Proofs.Checksum.Burst
import TripleStore.Proofs.PredicateIndex.Dense
import TripleStore.Proofs.Section.Corruption
import TripleStore.Proofs.Section.CutShort
import TripleStore.Proofs.Section.Grammar
import TripleStore.Proofs.Section.InPlace
import TripleStore.Proofs.Section.Portable
import TripleStore.Proofs.Sequence.Calls
import TripleStore.Proofs.Sequence.Equality
import TripleStore.Proofs.Sequence.Growing
import TripleStore.Proofs.Store.Accepted
import TripleStore.Proofs.Store.Attached
import TripleStore.Proofs.Store.Checked
import TripleStore.Proofs.Store.Delimited
import TripleStore.Proofs.Store.LaidOut
import TripleStore.Proofs.Store.Loaded
import TripleStore.Proofs.Store.Modes
import TripleStore.Proofs.Store.Reopened
import TripleStore.Proofs.Store.RoundTrip
import TripleStore.Proofs.Store.Searches
import TripleStore.Proofs.Store.Strict
import TripleStore.Proofs.Terms
import TripleStore.Proofs.Vbyte.Format
import TripleStore.Proofs.Vbyte.Shifts
import TripleStore.Proofs.Vbyte.Shortest
import TripleStore.Store.Disk
