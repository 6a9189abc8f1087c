import TripleStore.Proofs.Bytes.Yields
import TripleStore.Proofs.Checked.Cursor
import TripleStore.PredicateIndex.Section
import TripleStore.Tree.Section

/-!
# Where words come from

Words are built, and then they are owned, or they are read, and then the range
that they lie in was passed over in the backing. So the words of every tree and
of every index that comes into being lie where they are said to.
-/

namespace TripleStore

/-! ## Built -/

theorem Bitmap.fits_of_ofBits {bits : List Bool} {b : Bitmap}
    (h : ofBits bits = .ok b) :
    b.words.Fits := by
  unfold ofBits at h
  cases hbuilder : Builder.empty.pushAll bits with
  | error e =>
      rw [hbuilder] at h
      cases h
  | ok builder =>
      rw [hbuilder] at h
      cases h
      trivial

theorem Sequence.fits_ofList (values : List UInt64) :
    (ofList values).words.Fits := trivial

theorem Adjacency.fits_of_ofParts {bitmap : Bitmap} {sequence : Sequence}
    {a : Adjacency} (hbitmap : bitmap.words.Fits)
    (hsequence : sequence.words.Fits) (h : ofParts bitmap sequence = .ok a) :
    a.Fits := by
  obtain ⟨rfl, rfl⟩ := ofParts_eq_ok h
  exact ⟨hbitmap, hsequence⟩

theorem Adjacency.fits_of_level {bits : List Bool} {values : List UInt64}
    {a : Adjacency} (h : Tree.level bits values = .ok a) : a.Fits := by
  obtain ⟨bitmap, hbitmap, hparts⟩ := parts_of_level h
  exact fits_of_ofParts (Bitmap.fits_of_ofBits hbitmap)
    (Sequence.fits_ofList values) hparts

theorem Adjacency.fits_of_build {groups : List (List UInt64)} {a : Adjacency}
    (h : build groups = .ok a) : a.Fits :=
  fits_of_level (level_of_build h).2

theorem Tree.fits_of_build {order : Order} {triples : List Triple} {t : Tree}
    (h : build order triples = .ok t) : t.Fits := by
  obtain ⟨-, -, hmiddles, hminors, -, -⟩ := parts_of_build h
  exact ⟨Adjacency.fits_of_level hmiddles, Adjacency.fits_of_level hminors⟩

theorem PredicateIndex.fits_of_build {t : Tree} {x : PredicateIndex}
    (h : build t = .ok x) : x.Fits :=
  Adjacency.fits_of_build (groups_of_build h).2

/-! ## Read -/

namespace Scan

/-- A range that is passed over lies inside the backing. -/
theorem yields_range (n : Nat) :
    Yields (range n) fun found => found.2 + n ≤ found.1.size := by
  refine yields_bind fun s => ?_
  dsimp only
  split
  · exact yields_throw _ _
  · next hroom =>
      exact yields_bind fun _ => yields_bind fun _ =>
        yields_pure (Nat.le_of_not_lt hroom)

end Scan

open Scan

theorem Words.yields_read (mode : LoadMode) (n : Nat) :
    Yields (read mode n) fun w => w.val.Fits := by
  refine yields_then (yields_range (8 * n)) ?_
  rintro ⟨backing, start⟩ hroom
  refine yields_pure ?_
  cases mode with
  | loaded => trivial
  | mapped => exact hroom

theorem Bitmap.yields_read (config : Config) :
    Yields (read config) fun b => b.words.Fits := by
  refine yields_bind fun _ => yields_bind fun _ => yields_bind fun _ =>
    yields_bind fun _ =>
    yields_bind fun _ => ?_
  dsimp only
  split
  · exact yields_throw _ _
  · refine yields_then (Words.yields_read _ _) fun words hwords =>
      yields_bind fun _ => ?_
    exact yields_pure hwords

theorem Sequence.yields_read (config : Config) :
    Yields (read config) fun s => s.words.Fits := by
  refine yields_bind fun _ => yields_bind fun _ => yields_bind fun _ =>
    yields_bind fun _ =>
    yields_bind fun _ => ?_
  dsimp only
  split
  · refine yields_bind fun size => ?_
    split
    · exact yields_throw _ _
    · refine yields_then (Words.yields_read _ _) fun words hwords =>
        yields_bind fun _ => ?_
      exact yields_pure hwords
  · exact yields_throw _ _

theorem Adjacency.yields_read (config : Config) :
    Yields (read config) Adjacency.Fits := by
  refine yields_then (Bitmap.yields_read config) fun bitmap hbitmap => ?_
  refine yields_then (Sequence.yields_read config) fun sequence hsequence => ?_
  split
  · next hparts => exact yields_pure (fits_of_ofParts hbitmap hsequence hparts)
  · exact yields_throw _ _

theorem Tree.yields_read (config : Config) :
    Yields (read config) Tree.Fits := by
  refine yields_bind fun _ => yields_bind fun _ => yields_bind fun _ =>
    yields_bind fun _ =>
    yields_bind fun _ => yields_bind fun _ => ?_
  refine yields_then (Adjacency.yields_read config) fun middles hmiddles => ?_
  refine yields_then (Adjacency.yields_read config) fun minors hminors => ?_
  dsimp only
  split
  · exact yields_throw _ _
  · exact yields_pure ⟨hmiddles, hminors⟩

theorem Tree.fits_of_ofBacking {config : Config} {backing : Backing} {t : Tree}
    (h : (ofBacking config backing).result = .ok t) : t.Fits :=
  of_run (yields_whole (yields_read config)) h

theorem PredicateIndex.fits_of_ofBacking {config : Config} {backing : Backing}
    {x : PredicateIndex} (h : (ofBacking config backing).result = .ok x) :
    x.Fits := by
  refine of_run ?_ h
  refine yields_bind fun _ => yields_bind fun _ => yields_bind fun _ =>
    yields_bind fun _ => ?_
  refine yields_then (yields_whole (Adjacency.yields_read config))
    fun positions hpositions => ?_
  split
  · exact yields_pure hpositions
  · exact yields_throw _ _

end TripleStore
