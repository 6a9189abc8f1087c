import TripleStore.Proofs.Bytes.Twins
import TripleStore.Proofs.PredicateIndex.Section

/-!
# Copies and views

A structure that copied its words and one that left them in the backing are
copies of each other: the same numbers stand in the same words, and so they are
equal. Every section is read as a copy of what it is read as in the other mode
(`twins_read`).
-/

namespace TripleStore

open Scan
open Section (Header)

/-! ## Copies -/

structure Adjacency.Copy (a b : Adjacency) : Prop where
  bitmap : a.bitmap.Same b.bitmap
  sequence : a.sequence.Copy b.sequence

theorem Adjacency.Copy.same {a b : Adjacency} (h : a.Copy b) : a.Same b :=
  ⟨h.bitmap, h.sequence.same⟩

theorem Adjacency.Copy.beq {a b : Adjacency} (h : a.Copy b) :
    (a == b) = true := by
  show (a.bitmap == b.bitmap && a.sequence == b.sequence) = true
  rw [h.bitmap.beq, h.sequence.beq]
  rfl

structure Tree.Copy (t u : Tree) : Prop where
  order : t.order = u.order
  middles : t.middles.Copy u.middles
  minors : t.minors.Copy u.minors
  maxMiddle : t.maxMiddle = u.maxMiddle
  maxMinor : t.maxMinor = u.maxMinor

theorem Tree.Copy.same {t u : Tree} (h : t.Copy u) : t.Same u :=
  ⟨h.order, h.middles.same, h.minors.same, h.maxMiddle, h.maxMinor⟩

/-! ## Checks on what was read -/

/-- Copies of parts fit together or have the same fault. -/
theorem Adjacency.ofParts_copy {b c : Bitmap} {s t : Sequence} (hb : b.Same c)
    (hs : s.Copy t) :
    (∃ x y, ofParts b s = .ok x ∧ ofParts c t = .ok y ∧ x.Copy y) ∨
      ∃ fault, ofParts b s = .error fault ∧ ofParts c t = .error fault := by
  by_cases hsizes : b.size = s.size
  · have hsizes' : c.size = t.size := by rw [← hb.size, hsizes, hs.size]
    have hlast : (b.size ≠ 0 → b.bit (b.size - 1) = true) ↔
        (c.size ≠ 0 → c.bit (c.size - 1) = true) := by
      rw [← hb.size]
      refine forall_congr' fun hne => ?_
      rw [hb.bit (Nat.sub_one_lt hne)]
    by_cases hend : b.size ≠ 0 → b.bit (b.size - 1) = true
    · exact .inl ⟨⟨b, s, hsizes, hend⟩, ⟨c, t, hsizes', hlast.mp hend⟩,
        by rw [ofParts, dif_pos hsizes, dif_pos hend],
        by rw [ofParts, dif_pos hsizes', dif_pos (hlast.mp hend)], hb, hs⟩
    · exact .inr ⟨.unterminated, by rw [ofParts, dif_pos hsizes, dif_neg hend],
        by rw [ofParts, dif_pos hsizes', dif_neg (hend ∘ hlast.mpr)]⟩
  · have hsizes' : c.size ≠ t.size := by rwa [← hb.size, ← hs.size]
    refine .inr ⟨.unequalParts b.size s.size,
      by rw [ofParts, dif_neg hsizes], ?_⟩
    rw [ofParts, dif_neg hsizes', hb.size, hs.size]

theorem Tree.Same.mismatch? {t u : Tree} (h : t.Same u) (size : Nat) :
    t.mismatch? size = u.mismatch? size := by
  have hsize : t.size = u.size := h.minors.size
  rw [Tree.mismatch?, Tree.mismatch?, hsize, h.minors.keys, h.middles.size,
    h.maxMiddle, h.maxMinor, h.middles.sequence.toList,
    h.minors.sequence.toList]

/-! ## Reading -/

theorem Section.Header.twins_read (strict : Bool) :
    Twins Eq (read strict) (read strict) := by
  refine twins_same (twins_restart _) fun _ =>
    twins_same (twins_of_plain (plain_readExact _)) fun bytes => ?_
  split
  · exact twins_throw _
  · exact twins_same (twins_of_plain plain_readKind) fun _ =>
      twins_same (twins_of_plain (Vbyte.plain_read 64)) fun count =>
      twins_same (twins_of_plain (plain_readProperties .empty count)) fun _ =>
      twins_same (twins_closePart .header strict) fun _ => twins_pure rfl

/-- The same choices, with the words copied or left where they are. -/
def Config.inMode (config : Config) (mode : LoadMode) : Config :=
  { config with loadMode := mode }

variable (config : Config) (mode mode' : LoadMode)

theorem twins_words (n : Nat) :
    Twins (fun w v => ∀ i, w.val.word i = v.val.word i)
    (Words.read mode n) (Words.read mode' n) :=
  twins_of_passes (Words.passes_read mode mode' n) fun _ _ _ h i => (h i).symm

theorem Bitmap.twins_read :
    Twins Same (read (config.inMode mode)) (read (config.inMode mode')) := by
  refine twins_same (Header.twins_read config.strict) fun header =>
    twins_same (twins_lift _) fun header =>
    twins_same (twins_lift _) fun kind =>
    twins_same (twins_restart kind) fun _ =>
    twins_same (twins_of_plain (plain_readExact 8)) fun bytes => ?_
  dsimp only
  split
  · exact twins_throw _
  · refine twins_bind (twins_words mode mode' _) fun words words' hwords =>
      twins_same (twins_closePart .bitmap config.strict) fun _ =>
        twins_pure ⟨rfl, fun i => ?_⟩
    show maskedWord words.val _ i = maskedWord words'.val _ i
    rw [maskedWord, maskedWord, hwords]
    rfl

theorem Sequence.twins_read :
    Twins Copy (read (config.inMode mode)) (read (config.inMode mode')) := by
  refine twins_same (Header.twins_read config.strict) fun header =>
    twins_same (twins_lift _) fun header =>
    twins_same (twins_lift _) fun kind =>
    twins_same (twins_restart kind) fun _ =>
    twins_same (twins_of_plain plain_byte) fun byte => ?_
  dsimp only
  split
  · refine twins_same (twins_of_plain (Vbyte.plain_read 64)) fun size => ?_
    split
    · exact twins_throw _
    · exact twins_bind (twins_words mode mode' _) fun words words' hwords =>
        twins_same (twins_closePart .sequence config.strict) fun _ =>
          twins_pure ⟨rfl, rfl, hwords⟩
  · exact twins_throw _

theorem Adjacency.twins_read :
    Twins Copy (read (config.inMode mode)) (read (config.inMode mode')) := by
  refine twins_bind (Bitmap.twins_read config mode mode') fun b c hb =>
    twins_bind (Sequence.twins_read config mode mode') fun s t hs => ?_
  rcases ofParts_copy hb hs with ⟨x, y, hx, hy, hcopy⟩ |
    ⟨fault, hfault, hfault'⟩
  · rw [hx, hy]
    exact twins_pure hcopy
  · rw [hfault, hfault']
    exact twins_throw _

theorem Tree.twins_read :
    Twins Copy (read (config.inMode mode)) (read (config.inMode mode')) := by
  refine twins_same (Header.twins_read config.strict) fun header =>
    twins_same (twins_lift _) fun header =>
    twins_same (twins_lift _) fun order =>
    twins_same (twins_lift _) fun size =>
    twins_same (twins_lift _) fun maxMiddle =>
    twins_same (twins_lift _) fun maxMinor =>
    twins_bind (Adjacency.twins_read config mode mode')
      fun middles middles' hmiddles =>
    twins_bind (Adjacency.twins_read config mode mode')
      fun minors minors' hminors => ?_
  have hcopy : Copy ⟨order, middles, minors, maxMiddle, maxMinor⟩
      ⟨order, middles', minors', maxMiddle, maxMinor⟩ :=
        ⟨rfl, hmiddles, hminors, rfl, rfl⟩
  dsimp only
  rw [hcopy.same.mismatch?]
  split
  · exact twins_throw _
  · exact twins_pure hcopy

theorem PredicateIndex.twins_readWhole :
    Twins (fun x y => x.positions.Copy y.positions)
    (readWhole (config.inMode mode)) (readWhole (config.inMode mode')) := by
  refine twins_same (Header.twins_read config.strict) fun header =>
    twins_same (twins_lift _) fun header =>
    twins_same (twins_lift _) fun predicates =>
    twins_same (twins_lift _) fun entries =>
    twins_bind (twins_whole .predicateIndex
      (Adjacency.twins_read config mode mode'))
    fun positions positions' hcopy => ?_
  rw [hcopy.same.keys, hcopy.same.size]
  split
  · exact twins_pure hcopy
  · exact twins_throw _

end TripleStore
