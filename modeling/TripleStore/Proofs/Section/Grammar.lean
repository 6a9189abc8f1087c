import Mathlib.Data.List.Induction
import Mathlib.Data.List.Sort
import TripleStore.Proofs.Bytes.Covers
import TripleStore.Proofs.Section.Header
import TripleStore.Proofs.Vbyte.Format

/-!
# Which bytes are a header

The grammar of a header is given by what spells its pieces: a number in groups
of seven bits, not necessarily the fewest, a text with its size in front, keys
and values in turn, and around them the magic bytes, a kind, the version and the
check (`Spells`). Reading feeds on what spells the pieces (`feeds_readBody`),
and what spells them is read (`Spells.reads`), so that strict reading gives a
header after just the bytes that spell it (`read_eq_ok_iff`). The number of
entries is whatever the bytes say, but each entry that is read uses up two of
them, and the loop runs no longer than they last (`readProperties_eq_min`).
-/

namespace TripleStore

open Scan

namespace Scan

variable {α β : Type} {P : Bytes → α → Prop} {act : Scan α} {f : α → Scan β}

/-- However the scan ends, it has passed over what comes next and over no more
than is left. -/
def Advances (act : Scan α) : Prop :=
  ∀ s, ∃ bytes, bytes <+: s.source.rest ∧
    (leftBy (act s)).source = s.source.advance bytes.length

theorem Feeds.advances (h : Feeds P act) : Advances act := by
  intro s
  obtain ⟨bytes, hnext, hleft⟩ := h.exists_past s
  exact ⟨bytes, hnext, congrArg State.source hleft⟩

theorem advances_bind (hact : Advances act) (hf : ∀ a, Advances (f a)) :
    Advances (act >>= f) := by
  intro s
  obtain ⟨p, hp, hleft⟩ := hact s
  cases ha : act s with
  | error e t =>
      rw [ha] at hleft
      refine ⟨p, hp, ?_⟩
      rw [bind_eq_error.mpr (.inl ha)]
      exact hleft
  | ok a t =>
      rw [ha] at hleft
      obtain ⟨q, hq, hmore⟩ := hf a t
      rw [show t.source = s.source.advance p.length from hleft] at hq hmore
      refine ⟨p ++ q, Source.append_prefix_rest hp hq, ?_⟩
      rw [bind_of_ok ha, hmore, Source.advance_advance, List.length_append]

theorem advances_of_still (h : ∀ s, (leftBy (act s)).source = s.source) :
    Advances act :=
  fun s => ⟨[], List.nil_prefix, h s⟩

theorem advances_verify : Advances verify := by
  intro s
  obtain ⟨bytes, hnext, ⟨-, hverify⟩ | ⟨e, hverify⟩⟩ := verify_aside s
  · exact ⟨bytes, hnext, congrArg (fun r => (leftBy r).source) hverify⟩
  · exact ⟨bytes, hnext, congrArg (fun r => (leftBy r).source) hverify⟩

theorem advances_closePart (part : Section.Part) (strict : Bool) :
    Advances (closePart part strict) := by
  refine advances_bind advances_verify fun matched => ?_
  split
  · exact advances_of_still fun _ => rfl
  · split
    · exact advances_of_still fun _ => rfl
    · exact advances_of_still fun _ => rfl

/-- What comes second matters only where the first comes to its end. -/
theorem bind_congr_of_ok {s : State} {g : α → Scan β}
    (h : ∀ a s', act s = .ok a s' → f a s' = g a s') :
    (act >>= f) s = (act >>= g) s := by
  cases ha : act s with
  | error e t => rw [bind_eq_error.mpr (.inl ha), bind_eq_error.mpr (.inl ha)]
  | ok a t => rw [bind_of_ok ha, bind_of_ok ha, h a t ha]

end Scan

/-! ## Numbers -/

namespace Vbyte

variable {bits n : Nat} {bytes : Bytes}

/-- The bytes, all of them, are a number of 64 bits. -/
def Spells (bytes : Bytes) (n : Nat) : Prop :=
  parse 64 bytes = .ok (n, bytes.length)

instance (bytes : Bytes) (n : Nat) : Decidable (Spells bytes n) :=
  inferInstanceAs (Decidable (_ = _))

theorem Spells.length_pos (h : Spells bytes n) : 1 ≤ bytes.length := by
  cases bytes with
  | nil => cases h
  | cons b bytes => exact Nat.succ_pos _

/-- Bytes that are decoded to the end begin with a group that fits, and this is
the last or others are decoded to the end behind it. -/
theorem decodeFrom_cons_iff {p : Partial} {b : UInt8} :
    decodeFrom bits p 0 (b :: bytes) = .ok (n, (b :: bytes).length) ↔
    ∃ q, p.push bits b = .ok q ∧
      (isLast b = true ∧ q.value = n ∧ bytes = [] ∨
        isLast b = false ∧
        decodeFrom bits q 0 bytes = .ok (n, bytes.length)) := by
  rw [decodeFrom_cons]
  cases p.push bits b with
  | error e => simp [Except.map]
  | ok q =>
      cases isLast b with
      | true => simp [Except.map, eq_comm]
      | false =>
          cases hdecode : decodeFrom bits q 0 bytes with
          | error e => simp [Except.map, hdecode]
          | ok a =>
              obtain ⟨m, used⟩ := a
              simp [Except.map, hdecode]

theorem feeds_readFrom (p : Partial) :
    Feeds (fun bytes n => decodeFrom bits p 0 bytes = .ok (n, bytes.length))
      (readFrom bits p) := by
  -- on what is left of the width, since every group that is taken comes seven
  -- bits higher
  induction h : bits - p.shift using Nat.strongRecOn generalizing p with
  | ind n ih =>
      subst h
      rw [readFrom_eq]
      refine feeds_bind feeds_byte ?_
      rintro _ b rfl
      cases hpush : p.push bits b with
      | error e => exact feeds_throw e
      | ok q =>
          obtain ⟨hlt, hshift⟩ := Partial.shift_lt_of_push hpush
          dsimp only
          split
          · next hlast =>
              exact feeds_pure (decodeFrom_cons_iff.mpr
                ⟨q, hpush, .inl ⟨hlast, rfl, rfl⟩⟩)
          · next hmore =>
              refine (ih _ (by rw [hshift]; omega) q rfl).imp
                fun more n hdecode => ?_
              exact decodeFrom_cons_iff.mpr
                ⟨q, hpush, .inr ⟨Bool.not_eq_true _ ▸ hmore, hdecode⟩⟩

/-- What is read as a number spells it. -/
theorem feeds_read : Feeds Spells (read 64) := by
  refine (feeds_readFrom .empty).imp fun bytes n h => ?_
  rw [Spells, ← decode_eq_parse]
  exact h

theorem reads_of_decodeFrom {p : Partial}
    (h : decodeFrom bits p 0 bytes = .ok (n, bytes.length)) (r : Running) :
    Reads (readFrom bits p) r bytes (· = n) (r.absorb bytes) := by
  induction bytes generalizing p r with
  | nil => cases h
  | cons b bytes ih =>
      obtain ⟨q, hpush, ⟨hlast, rfl, rfl⟩ | ⟨hmore, hdecode⟩⟩ :=
        decodeFrom_cons_iff.mp h
      · apply reads_readFrom_of_push hpush
        rw [if_pos hlast]
        exact reads_pure (P := (· = q.value)) rfl _
      · rw [← List.singleton_append, Running.absorb_append]
        apply reads_readFrom_of_push hpush
        rw [hmore]
        exact ih hdecode _

/-- Whatever spells a number is read as it. -/
theorem Spells.reads (h : Spells bytes n) (r : Running) :
    Reads (read 64) r bytes (· = n) (r.absorb bytes) := by
  rw [Spells, ← decode_eq_parse] at h
  exact reads_of_decodeFrom h r

end Vbyte

namespace Section

/-! ## Kinds and properties -/

theorem Kind.tag_of_parseTag {tag : UInt8} {kind : Kind}
    (h : parseTag tag = .ok kind) : kind.tag = tag := by
  rw [parseTag] at h
  split at h
  · next found hfound =>
      cases h
      have hmatch := List.find?_some hfound
      exact beq_iff_eq.mp hmatch
  · cases h

theorem Kind.tag_bounds (kind : Kind) : 1 ≤ kind.tag ∧ kind.tag ≤ 4 := by
  cases kind <;> decide

theorem Kind.exists_tag {tag : UInt8} (hlow : 1 ≤ tag) (hhigh : tag ≤ 4) :
    ∃ kind : Kind, kind.tag = tag := by
  have hbounds : 1 ≤ tag.toNat ∧ tag.toNat ≤ 4 := ⟨hlow, hhigh⟩
  have hcases : tag.toNat = 1 ∨ tag.toNat = 2 ∨ tag.toNat = 3 ∨
      tag.toNat = 4 := by omega
  rcases hcases with h | h | h | h
  · exact ⟨.bitmap, UInt8.toNat_inj.mp h.symm⟩
  · exact ⟨.sequence, UInt8.toNat_inj.mp h.symm⟩
  · exact ⟨.triples, UInt8.toNat_inj.mp h.symm⟩
  · exact ⟨.predicateIndex, UInt8.toNat_inj.mp h.symm⟩

theorem Kind.tag_injective : Function.Injective Kind.tag := by
  intro k l h
  have hkinds := ofTag?_tag k
  rw [h, ofTag?_tag] at hkinds
  exact (Option.some.inj hkinds).symm

namespace Properties

/-- Among entries in ascending order a key stands once, with its value. -/
theorem mem_entries_iff {p : Properties} {key value : String} :
    (key, value) ∈ p.entries ↔ p.get? key = some value := by
  rw [get?, List.lookup_eq_some_iff]
  constructor
  · intro hmem
    obtain ⟨before, after, hsplit⟩ := List.mem_iff_append.mp hmem
    refine ⟨before, after, hsplit, fun e he => ?_⟩
    have hlt : e.1 < key := by
      have hsorted := p.sorted
      rw [hsplit, List.pairwise_append] at hsorted
      exact hsorted.2.2 e he (key, value) List.mem_cons_self
    simpa using fun heq : key = e.1 => String.lt_irrefl key (heq ▸ hlt)
  · rintro ⟨before, after, hsplit, -⟩
    exact hsplit ▸ List.mem_append_right before List.mem_cons_self

theorem ext_get? {p q : Properties} (h : ∀ key, p.get? key = q.get? key) :
    p = q := by
  have hirrefl : Std.Irrefl fun e f : String × String => e.1 < f.1 :=
    ⟨fun e => String.lt_irrefl e.1⟩
  have hantisymm : Std.Antisymm fun e f : String × String => e.1 < f.1 :=
    ⟨fun _ _ hef hfe => absurd hfe (String.lt_asymm hef)⟩
  refine ext (p.sorted.eq_of_mem_iff q.sorted fun ⟨key, value⟩ => ?_)
  rw [mem_entries_iff, mem_entries_iff, h key]

/-- Of entries that are put in one after another, the last one with a key gives
its value. -/
theorem get?_ofList (es : List (String × String)) (key : String) :
    (ofList es).get? key = es.reverse.lookup key := by
  induction es using List.reverseRecOn with
  | nil => rfl
  | append_singleton es e ih =>
      have hlast : ofList (es ++ [e]) = (ofList es).insert e.1 e.2 :=
        List.foldl_append
      rw [hlast, get?_insert, ih, List.reverse_append, List.reverse_singleton,
        List.singleton_append, lookup_cons]

end Properties

namespace Header

/-! ## The grammar -/

/-- A text in UTF-8, with its size in front. -/
inductive SpellsText : Bytes → String → Prop
  | mk {size : Bytes} {text : String}
      (hsize : Vbyte.Spells size (textBytes text).length)
      (hshort : Short text) : SpellsText (size ++ textBytes text) text

/-- Keys and values in turn. -/
inductive SpellsEntries : Bytes → List (String × String) → Prop
  | nil : SpellsEntries [] []
  | cons {key value rest : Bytes} {e : String × String}
      {es : List (String × String)} (hkey : SpellsText key e.1)
      (hvalue : SpellsText value e.2) (hrest : SpellsEntries rest es) :
      SpellsEntries (key ++ (value ++ rest)) (e :: es)

/-- The magic bytes, a kind and the version, then the number of entries and the
entries. -/
inductive SpellsBody : Bytes → UInt8 → List (String × String) → Prop
  | mk {tag : UInt8} {count entries : Bytes} {es : List (String × String)}
      (hlow : 1 ≤ tag) (hhigh : tag ≤ 4) (hcount : Vbyte.Spells count es.length)
      (hentries : SpellsEntries entries es) :
      SpellsBody (magic ++ ([tag, currentVersion] ++ (count ++ entries))) tag es

/-- A whole header: behind the body comes its check, in two bytes. -/
def Spells (bytes : Bytes) (tag : UInt8) (es : List (String × String)) : Prop :=
  ∃ body, SpellsBody body tag es ∧
    bytes = body ++ LittleEndian.encode 2 (Checksum.crc16.compute body)

theorem SpellsText.length_pos {bytes : Bytes} {text : String}
    (h : SpellsText bytes text) :
    1 ≤ bytes.length := by
  obtain ⟨hsize, -⟩ := h
  rw [List.length_append]
  exact Nat.le_add_right_of_le hsize.length_pos

/-- Each entry takes two bytes at least. -/
theorem SpellsEntries.length_le {bytes : Bytes} {es : List (String × String)}
    (h : SpellsEntries bytes es) :
    2 * es.length ≤ bytes.length := by
  induction h with
  | nil => exact Nat.le_refl 0
  | cons hkey hvalue _ ih =>
      have hkey := hkey.length_pos
      have hvalue := hvalue.length_pos
      rw [List.length_cons, List.length_append, List.length_append]
      omega

/-! ## What is read spells it -/

theorem textBytes_of_fromUTF8? {bytes : Bytes} {text : String}
    (h : String.fromUTF8? bytes.toByteArray = some text) :
    textBytes text = bytes := by
  rw [String.fromUTF8?] at h
  split at h
  · cases h
    show bytes.toByteArray.data.toList = bytes
    rw [List.data_toByteArray]
  · cases h

theorem feeds_readText : Feeds SpellsText readText := by
  refine feeds_bind Vbyte.feeds_read fun size n hsize => ?_
  dsimp only
  split
  · exact feeds_throw _
  · next hshort =>
      refine feeds_bind (feeds_readMore #[] n) ?_
      rintro bytes _ ⟨rfl, rfl⟩
      split
      · next text htext =>
          obtain rfl := textBytes_of_fromUTF8? htext
          refine feeds_pure ?_
          rw [List.append_nil]
          exact .mk hsize (Nat.not_lt.mp hshort)
      · exact feeds_throw _

/-- The entries that are read are put into the properties one by one. -/
theorem feeds_readProperties (p : Properties) (count : Nat) :
    Feeds (fun bytes q => ∃ es, es.length = count ∧ SpellsEntries bytes es ∧
      q = es.foldl (fun p e => p.insert e.1 e.2) p)
        (readProperties p count) := by
  induction count generalizing p with
  | zero => exact feeds_pure ⟨[], rfl, .nil, rfl⟩
  | succ count ih =>
      rw [readProperties]
      refine feeds_bind feeds_readText fun key k hkey => ?_
      refine feeds_bind feeds_readText fun value v hvalue => ?_
      refine (ih (p.insert k v)).imp ?_
      rintro rest _ ⟨es, rfl, hrest, rfl⟩
      exact ⟨(k, v) :: es, rfl, .cons hkey hvalue hrest, rfl⟩

theorem feeds_readKind :
    Feeds (fun bytes found => bytes = [found.1.tag, currentVersion] ∧
    found.2 = currentVersion) readKind := by
  refine feeds_bind feeds_byte ?_
  rintro _ tag rfl
  refine feeds_bind feeds_byte ?_
  rintro _ version rfl
  cases hkind : Kind.parseTag tag with
  | error e => exact feeds_throw e
  | ok kind =>
      show Feeds _ (if version = currentVersion then pure (kind, version)
        else throw _)
      split
      · next hversion =>
          refine feeds_pure ?_
          rw [Kind.tag_of_parseTag hkind, hversion]
          exact ⟨rfl, rfl⟩
      · exact feeds_throw _

/-- What stands between the start of a header and its check. -/
def readBody : Scan Header := do
  if (← Scan.readExact magic.length) ≠ magic then
    throw (.invalidEncoding .badMagic)
  let (kind, version) ← readKind
  let properties ← readProperties .empty (← Vbyte.read 64)
  return ⟨kind, version, properties⟩

theorem read_eq (strict : Bool) : read strict = (do
    Scan.restart sealKind
    let h ← readBody
    Scan.closePart .header strict
    return h) := by
  simp only [read, readBody, bind_assoc]
  congr 1
  funext _
  congr 1
  funext bytes
  split
  · rfl
  · simp only [bind_assoc, pure_bind]

theorem feeds_readBody :
    Feeds (fun bytes h => ∃ es, SpellsBody bytes h.kind.tag es ∧
    h = ⟨h.kind, currentVersion, .ofList es⟩) readBody := by
  refine feeds_bind (feeds_readMore #[] magic.length) ?_
  rintro found _ ⟨rfl, -⟩
  dsimp only
  split
  · exact feeds_throw _
  · next hmagic =>
      obtain rfl := not_not.mp hmagic
      refine feeds_bind feeds_readKind ?_
      rintro _ ⟨kind, version⟩ ⟨rfl, rfl⟩
      refine feeds_bind Vbyte.feeds_read fun count n hcount => ?_
      refine feeds_bind (feeds_readProperties .empty n) ?_
      rintro entries _ ⟨es, rfl, hentries, rfl⟩
      refine feeds_pure ⟨es, ?_, rfl⟩
      rw [List.append_nil]
      exact .mk kind.tag_bounds.1 kind.tag_bounds.2 hcount hentries

/-- Where strict reading comes to its end, it has passed over what spells the
header. -/
theorem spells_of_read {s t : State} {h : Header}
    (hread : read true s = .ok h t) :
    ∃ bytes es, bytes <+: s.source.rest ∧
      t.source = s.source.advance bytes.length ∧
      Spells bytes h.kind.tag es ∧
      h = ⟨h.kind, currentVersion, .ofList es⟩ := by
  rw [read_eq, bind_of_ok
    (show restart sealKind s = .ok () { s with running := .start sealKind } from rfl)]
    at hread
  obtain ⟨h', s₁, hbody, hclose⟩ := Scan.bind_eq_ok.mp hread
  obtain ⟨body, ⟨es, hspells, hvalue⟩, hnext, rfl⟩ := feeds_readBody.ok hbody
  obtain ⟨u, _, hclosed, ⟨⟩⟩ := Scan.bind_eq_ok.mp hclose
  obtain ⟨htrailer, hsource⟩ := closePart_eq_ok hclosed
  refine ⟨_, es, Source.append_prefix_rest hnext htrailer, ?_,
    ⟨body, hspells, rfl⟩, hvalue⟩
  rw [hsource, List.length_append, ← Source.advance_advance]
  rfl

/-! ## What is spelt is read -/

theorem sealed_eq (body : Bytes) :
    sealed sealKind body = body ++
      LittleEndian.encode 2 (Checksum.crc16.compute body) := rfl

theorem SpellsText.reads {bytes : Bytes} {text : String}
    (h : SpellsText bytes text) (r : Running) :
    Reads readText r bytes (· = text) (r.absorb bytes) := by
  obtain ⟨hsize, hshort⟩ := h
  exact reads_sized hsize.reads hshort r

theorem SpellsEntries.reads {bytes : Bytes} {es : List (String × String)}
    (h : SpellsEntries bytes es) (p : Properties) (r : Running) :
    Reads (readProperties p es.length) r bytes
      (· = es.foldl (fun p e => p.insert e.1 e.2) p) (r.absorb bytes) := by
  induction h generalizing p r with
  | nil => exact reads_pure (P := (· = p)) rfl r
  | cons hkey hvalue _ ih => exact reads_entry hkey.reads hvalue.reads (ih _) r

theorem Spells.reads {bytes : Bytes} {tag : UInt8} {es : List (String × String)}
    (h : Spells bytes tag es) (strict : Bool) (r : Running) : ∃ kind :
      Kind, kind.tag = tag ∧ ∃ r', Reads (read strict) r bytes
      (· = ⟨kind, currentVersion, .ofList es⟩) r' := by
  obtain ⟨body, hbody, rfl⟩ := h
  rw [← sealed_eq]
  obtain ⟨hlow, hhigh, hcount, hentries⟩ := hbody
  obtain ⟨kind, rfl⟩ := Kind.exists_tag hlow hhigh
  exact ⟨kind, rfl, _,
    reads_pieces kind hcount.reads (hentries.reads .empty) strict r⟩

/-! ## The loop -/

/-- More entries than what is left can spell need not be tried: an entry takes
two bytes, so that the bytes give out before the count does. -/
theorem readProperties_eq {k count : Nat} {s : State}
    (hleft : s.source.rest.length < 2 * k) (hle : k ≤ count) (p : Properties) :
    readProperties p count s = readProperties p k s := by
  -- on the smaller count; behind an entry that is read, two bytes fewer are left
  induction k generalizing count p s with
  | zero => exact absurd hleft (Nat.not_lt_zero _)
  | succ k ih =>
      obtain ⟨count, rfl⟩ :=
        Nat.exists_eq_add_of_le' (Nat.le_of_add_left_le hle)
      rw [readProperties, readProperties]
      refine bind_congr_of_ok fun key s₁ hkey =>
        bind_congr_of_ok fun value s₂ hvalue => ?_
      obtain ⟨bytes, hspells, hnext, rfl⟩ := feeds_readText.ok hkey
      obtain ⟨bytes', hspells', hnext', rfl⟩ := feeds_readText.ok hvalue
      have hpassed := hspells.length_pos
      have hpassed' := hspells'.length_pos
      have hboth := (Source.append_prefix_rest hnext hnext').length_le
      rw [List.length_append] at hboth
      refine ih ?_ (Nat.le_of_succ_le_succ hle) (p.insert key value)
      show ((s.source.advance bytes.length).advance bytes'.length).rest.length <
        2 * k
      rw [Source.advance_advance, Source.rest_advance, List.length_drop]
      omega

/-- However many entries are announced, no more rounds are taken than what is
left has pairs of bytes, and the one in which it gives out. -/
theorem readProperties_eq_min (p : Properties) (count : Nat) (s : State) :
    readProperties p count s =
      readProperties p (min count (s.source.rest.length / 2 + 1)) s := by
  rcases Nat.le_total count (s.source.rest.length / 2 + 1) with hle | hle
  · rw [Nat.min_eq_left hle]
  · rw [Nat.min_eq_right hle]
    exact readProperties_eq (by omega) hle p

/-- Each entry that is read has taken two bytes at least. -/
theorem two_mul_le_of_readProperties {p q : Properties} {count : Nat}
    {s t : State} (h : readProperties p count s = .ok q t) :
    ∃ n, 2 * count ≤ n ∧ n ≤ s.source.rest.length ∧
      t.source = s.source.advance n := by
  obtain ⟨bytes, ⟨es, rfl, hentries, -⟩, hnext, rfl⟩ :=
    (feeds_readProperties p count).ok h
  exact ⟨bytes.length, hentries.length_le, hnext.length_le, rfl⟩

/-- However reading a header ends, it has passed over no more than was left. -/
theorem advances_read (strict : Bool) : Advances (read strict) := by
  rw [read_eq]
  refine advances_bind (advances_of_still fun _ => rfl) fun _ => ?_
  refine advances_bind feeds_readBody.advances fun h => ?_
  exact advances_bind (advances_closePart .header strict) fun _ =>
    advances_of_still fun _ => rfl

/-! ## Which header is read -/

/-- The header has the kind that the tag stands for and the current version, and
it has each key with the value that is found first from the back. -/
structure Holds (h : Header) (tag : UInt8) (es : List (String × String)) :
    Prop where
  kind : h.kind.tag = tag
  version : h.version = currentVersion
  last : ∀ key, h.get? key = es.reverse.lookup key

theorem holds_ofList (kind : Kind) (es : List (String × String)) :
    Holds ⟨kind, currentVersion, .ofList es⟩ kind.tag es :=
      ⟨rfl, rfl, Properties.get?_ofList es⟩

theorem Holds.unique {h h' : Header} {tag : UInt8} {es : List (String × String)}
    (hh : h.Holds tag es) (hh' : h'.Holds tag es) : h = h' := by
  obtain ⟨kind, version, p⟩ := h
  obtain ⟨kind', version', q⟩ := h'
  obtain rfl : kind = kind' := Kind.tag_injective (hh.kind.trans hh'.kind.symm)
  obtain rfl : version = version' := hh.version.trans hh'.version.symm
  obtain rfl : p = q :=
    Properties.ext_get? fun key => (hh.last key).trans (hh'.last key).symm
  rfl

/-- Strict reading comes to its end with a header just where what it has passed
over spells the header, byte for byte and check included. -/
theorem read_eq_ok_iff {s : State} (hsteady : s.source.Steady) {n : Nat}
    {h : Header} :
    (∃ t, read true s = .ok h t ∧ t.source = s.source.advance n) ↔
    n ≤ s.source.rest.length ∧
      ∃ tag es, Spells (s.source.rest.take n) tag es ∧ h.Holds tag es := by
  constructor
  · rintro ⟨t, hread, hsource⟩
    obtain ⟨bytes, es, hnext, hpassed, hspells, hvalue⟩ := spells_of_read hread
    obtain rfl : bytes.length = n :=
      Nat.add_left_cancel
        (congrArg Source.position (hpassed.symm.trans hsource))
    refine ⟨hnext.length_le, h.kind.tag, es, ?_, ?_⟩
    · rwa [← List.prefix_iff_eq_take.mp hnext]
    · rw [hvalue]
      exact holds_ofList h.kind es
  · rintro ⟨hle, tag, es, hspells, hholds⟩
    obtain ⟨kind, rfl, r', hreads⟩ := hspells.reads true s.running
    obtain ⟨_, rfl, hread⟩ :=
      hreads.takes s.source s.warnings hsteady (List.take_prefix _ _)
    rw [List.length_take_of_le hle] at hread
    obtain rfl := hholds.unique (holds_ofList kind es)
    exact ⟨_, hread, rfl⟩

/-- Reading a header ends, and it follows the grammar. It passes over no more
than what is left. The entries that are announced are tried only as long as they
can be there, since each that is read takes two bytes. If reading insists on the
check, it gives a header after `n` bytes just where these spell it, and of a key
that comes twice the last value counts. -/
theorem read_exact (s : State) :
    (∀ strict, ∃ n ≤ s.source.rest.length, (leftBy (read strict s)).source =
      s.source.advance n) ∧
    (∀ p count, readProperties p count s =
      readProperties p (min count (s.source.rest.length / 2 + 1)) s) ∧
    (∀ p count q t, readProperties p count s = .ok q t → ∃ n, 2 * count ≤ n ∧
      n ≤ s.source.rest.length ∧ t.source = s.source.advance n) ∧
    (s.source.Steady →
      ∀ n h, (∃ t, read true s = .ok h t ∧ t.source = s.source.advance n) ↔
      n ≤ s.source.rest.length ∧
      ∃ tag es, Spells (s.source.rest.take n) tag es ∧ h.Holds tag es) := by
  refine ⟨fun strict => ?_, fun p count => readProperties_eq_min p count s,
    fun p count q t h => two_mul_le_of_readProperties h, fun hsteady n h =>
      read_eq_ok_iff hsteady⟩
  obtain ⟨bytes, hnext, hleft⟩ := advances_read strict s
  exact ⟨bytes.length, hnext.length_le, hleft⟩

/-- A number may be spelt at greater length than needed, here that of the
entries, and the second value of a key takes the place of the first. -/
theorem read_exact_twice :
    let entries : Bytes := [129, 97, 129, 120, 129, 97, 129, 121]
    let bytes : Bytes :=
      [0x24, 0x54, 0x52, 0x49, 2, 1, 2, 128] ++ (entries ++ [29, 169])
    (∃ h t, read true (.ofSource (.chunked (bytes ++ [7]) 1 .failure)) = .ok h t ∧
      t.source.rest = [7] ∧ h.kind = .sequence ∧ h.get? "a" = some "y" ∧
      h.get? "b" = none) ∧
    ∃ q t, readProperties .empty 2
      (.ofSource (.chunked entries 1 .failure)) = .ok q t ∧
      ∃ n, 2 * 2 ≤ n ∧ n ≤ entries.length ∧
        t.source = (Source.chunked entries 1 .failure).advance n := by
  intro entries bytes
  have ha : SpellsText [129, 97] "a" :=
    @SpellsText.mk [129] "a" (by decide) (by decide)
  have hx : SpellsText [129, 120] "x" :=
    @SpellsText.mk [129] "x" (by decide) (by decide)
  have hy : SpellsText [129, 121] "y" :=
    @SpellsText.mk [129] "y" (by decide) (by decide)
  have hentries : SpellsEntries entries [("a", "x"), ("a", "y")] :=
    @SpellsEntries.cons [129, 97] [129, 120] _ _ _ ha hx
      (@SpellsEntries.cons [129, 97] [129, 121] _ _ _ ha hy .nil)
  have hcount : Vbyte.Spells [2, 128] 2 := by decide
  have hspells : Spells bytes 2 [("a", "x"), ("a", "y")] :=
    ⟨_, .mk (by decide) (by decide) hcount hentries, by decide +kernel⟩
  constructor
  · obtain ⟨-, -, -, hread⟩ :=
      read_exact (.ofSource (.chunked (bytes ++ [7]) 1 .failure))
    obtain ⟨t, hok, hsource⟩ :=
      (hread (Source.steady_chunked _ Nat.one_pos _) bytes.length
      ⟨.sequence, currentVersion, .ofList [("a", "x"), ("a", "y")]⟩).mpr
      ⟨by decide, 2, _, hspells, holds_ofList .sequence _⟩
    refine ⟨_, t, hok, ?_, rfl, by decide, by decide⟩
    rw [hsource]
    rfl
  · obtain ⟨-, -, htwo, -⟩ :=
      read_exact (.ofSource (.chunked entries 1 .failure))
    obtain ⟨q, -, hok⟩ := (hentries.reads .empty (.start .standard)).takes
      (.chunked entries 1 .failure) []
      (Source.steady_chunked _ Nat.one_pos _) List.prefix_rfl
    exact ⟨q, _, hok, htwo _ _ _ _ hok⟩

end Header

end Section

end TripleStore
