import TripleStore.Section.Header
import TripleStore.Proofs.Text.Numeral
import TripleStore.Proofs.Vbyte

/-!
# Headers come back

The entries of a header are read in the order in which they were written, which
is the ascending order of their keys, and so they come to stand as before. A
header of the current version whose texts are not too long is read as it was
written (`reads_read`).
-/

namespace TripleStore.Section

theorem Kind.parseTag_tag (kind : Kind) : parseTag kind.tag = .ok kind := by
  rw [parseTag, ofTag?_tag]

namespace Properties

theorem ext {p q : Properties} (h : p.entries = q.entries) : p = q := by
  obtain ⟨es, _⟩ := p
  obtain ⟨fs, _⟩ := q
  obtain rfl : es = fs := h
  rfl

theorem lookup_cons (k : String) (e : String × String)
    (es : List (String × String)) :
    (e :: es).lookup k = if k = e.1 then some e.2 else es.lookup k := by
  rw [List.lookup_cons]
  by_cases h : k = e.1
  · rw [if_pos h, beq_iff_eq.mpr h]
  · rw [if_neg h, beq_eq_false_iff_ne.mpr h]

theorem lookup_place (key value k : String) (es : List (String × String)) :
    (place key value es).lookup k = if k = key then some value
      else es.lookup k := by
  induction es with
  | nil => exact lookup_cons k (key, value) []
  | cons e es ih =>
      rw [place]
      split
      · next heq =>
          rw [lookup_cons, lookup_cons, ← heq]
          by_cases h : k = key
          · rw [if_pos h, if_pos h]
          · rw [if_neg h, if_neg h, if_neg h]
      · next hne =>
          split
          · rw [lookup_cons]
          · rw [lookup_cons, lookup_cons, ih]
            by_cases h : k = key
            · rw [if_neg (h ▸ hne), if_pos h, if_pos h]
            · rw [if_neg h, if_neg h]

theorem get?_insert (p : Properties) (key value k : String) :
    (p.insert key value).get? k = if k = key then some value else p.get? k :=
  lookup_place key value k p.entries

theorem length_place_le (key value : String) (es : List (String × String)) :
    (place key value es).length ≤ es.length + 1 := by
  induction es with
  | nil => exact Nat.le_refl 1
  | cons e es ih =>
      rw [place]
      split
      · exact Nat.le_succ _
      · split
        · exact Nat.le_refl _
        · exact Nat.succ_le_succ ih

/-- What comes behind all keys is put at the end. -/
theorem place_last {key value : String} {es : List (String × String)}
    (h : ∀ e ∈ es, e.1 < key) :
    place key value es = es ++ [(key, value)] := by
  induction es with
  | nil => rfl
  | cons e es ih =>
      have hlt := h e List.mem_cons_self
      have hne : key ≠ e.1 := fun heq => String.lt_irrefl key (heq ▸ hlt)
      rw [place, if_neg hne, if_neg (String.lt_asymm hlt), ih fun f hf =>
        h f (List.mem_cons_of_mem e hf)]
      rfl

theorem entries_foldl_insert {es : List (String × String)} {p : Properties}
    (h : (p.entries ++ es).Pairwise (·.1 < ·.1)) :
    (es.foldl (fun p e => p.insert e.1 e.2) p).entries = p.entries ++ es := by
  induction es generalizing p with
  | nil => simp
  | cons e es ih =>
      have hplace : (p.insert e.1 e.2).entries = p.entries ++ [e] := by
        apply place_last
        intro f hf
        exact (List.pairwise_append.mp h).2.2 f hf e List.mem_cons_self
      have hsplit :
          p.entries ++ e :: es = (p.insert e.1 e.2).entries ++ es := by
        rw [hplace, List.append_assoc]
        rfl
      rw [List.foldl_cons, hsplit, ih (hsplit ▸ h)]

theorem ofList_entries (p : Properties) : ofList p.entries = p :=
  ext (entries_foldl_insert p.sorted)

end Properties

namespace Header

open Emit Scan

/-! ## Texts -/

/-- A text with its size in front. -/
def encodeText (text : String) : Bytes :=
  Vbyte.encode (textBytes text).length ++ textBytes text

def Short (text : String) : Prop := (textBytes text).length ≤ maxTextSize

instance (text : String) : Decidable (Short text) :=
  inferInstanceAs (Decidable (_ ≤ _))

theorem emits_text (text : String) (r : Running) :
    Emits (writeText text) r (encodeText text)
      (r.absorb (encodeText text)) := by
  have h := emits_bind (emits_vbyte (textBytes text).length r) fun _ =>
    emits_writeAll (textBytes text) _
  rwa [← Running.absorb_append] at h

theorem fromUTF8?_textBytes (text : String) :
    String.fromUTF8? (textBytes text).toByteArray = some text := by
  have hbytes : (textBytes text).toByteArray = text.toByteArray := by
    apply ByteArray.ext
    rw [List.data_toByteArray]
    rfl
  rw [hbytes, String.fromUTF8?, dif_pos text.isValidUTF8]
  rfl

/-- A text is read behind whatever is read as its size. -/
theorem reads_sized {size : Bytes} {text : String}
    (hsize : ∀ r, Reads (Vbyte.read 64) r size (· = (textBytes text).length)
      (r.absorb size))
    (h : Short text) (r : Running) :
    Reads readText r (size ++ textBytes text) (· = text)
      (r.absorb (size ++ textBytes text)) := by
  rw [readText, Running.absorb_append]
  refine reads_bind (hsize r) ?_
  rintro _ rfl
  dsimp only
  rw [if_neg (Nat.not_lt.mpr h)]
  refine reads_last (reads_readExact (textBytes text) _) ?_
  rintro _ rfl
  rw [fromUTF8?_textBytes]
  exact reads_pure (P := (· = text)) rfl _

theorem reads_text {text : String} (h : Short text) (r : Running) :
    Reads readText r (encodeText text) (· = text)
      (r.absorb (encodeText text)) :=
  reads_sized (Vbyte.reads_read (by decide) (Nat.lt_of_le_of_lt h (by decide))) h r

/-! ## Headers -/

def encodeEntry (e : String × String) : Bytes :=
  encodeText e.1 ++ encodeText e.2

/-- What stands before the check of a header. -/
def body (h : Header) : Bytes :=
  magic ++ ([h.kind.tag, h.version] ++
    (Vbyte.encode h.properties.size ++
      h.properties.entries.flatMap encodeEntry))

def encode (h : Header) : Bytes := sealed sealKind h.body

/-- What reading accepts of a header. -/
structure Portable (h : Header) : Prop where
  version : h.version = currentVersion
  size : h.properties.size < capacity 64
  texts : ∀ e ∈ h.properties.entries, Short e.1 ∧ Short e.2

variable {h : Header}

/-- A header piece by piece, each with the check that has come about before it. -/
theorem encode_eq (h : Header) :
    h.encode = magic ++
      ([h.kind.tag, h.version] ++ (Vbyte.encode h.properties.size ++
      (h.properties.entries.flatMap encodeEntry ++
        (((((Running.start sealKind).absorb magic).absorb
          [h.kind.tag, h.version]).absorb
          (Vbyte.encode h.properties.size)).absorb
            (h.properties.entries.flatMap encodeEntry)).trailer))) := by
  rw [encode, sealed, body, Running.absorb_append, Running.absorb_append,
    Running.absorb_append, List.append_assoc, List.append_assoc,
    List.append_assoc]

theorem emits_entry (e : String × String) (r : Running) :
    Emits (do writeText e.1; writeText e.2) r (encodeEntry e)
      (r.absorb (encodeEntry e)) := by
  rw [encodeEntry, Running.absorb_append]
  exact emits_bind (emits_text e.1 r) fun _ => emits_text e.2 _

theorem writes_write (h : Header) : Writes h.write h.encode := by
  intro r
  rw [encode_eq h]
  exact ⟨_, emits_silent (emits_restart sealKind r) fun _ =>
    emits_bind (emits_writeAll magic _) fun _ =>
    emits_bind (emits_writeAll [h.kind.tag, h.version] _) fun _ =>
    emits_bind (emits_vbyte h.properties.size _) fun _ =>
    emits_bind (emits_forM emits_entry h.properties.entries _) fun _ =>
      emits_trailer _⟩

/-- A key and a value are read of whatever is read as these, and the others
behind them. -/
theorem reads_entry {key value rest : Bytes} {e : String × String}
    {p q : Properties} {n : Nat}
    (hkey : ∀ r, Reads readText r key (· = e.1) (r.absorb key))
    (hvalue : ∀ r, Reads readText r value (· = e.2) (r.absorb value))
    (hrest : ∀ r, Reads (readProperties (p.insert e.1 e.2) n) r rest (· = q)
      (r.absorb rest)) (r : Running) :
    Reads (readProperties p n.succ) r (key ++ (value ++ rest)) (· = q)
      (r.absorb (key ++ (value ++ rest))) := by
  rw [Running.absorb_append, Running.absorb_append, readProperties]
  refine reads_bind (hkey r) ?_
  rintro _ rfl
  refine reads_bind (hvalue _) ?_
  rintro _ rfl
  exact hrest _

theorem reads_properties {es : List (String × String)}
    (hshort : ∀ e ∈ es, Short e.1 ∧ Short e.2) (p : Properties) (r : Running) :
    Reads (readProperties p es.length) r (es.flatMap encodeEntry)
      (· = es.foldl (fun p e => p.insert e.1 e.2) p)
      (r.absorb (es.flatMap encodeEntry)) := by
  induction es generalizing p r with
  | nil => exact reads_pure (P := (· = p)) rfl r
  | cons e es ih =>
      obtain ⟨hkey, hvalue⟩ := hshort e List.mem_cons_self
      rw [List.flatMap_cons, encodeEntry, List.append_assoc]
      exact reads_entry (reads_text hkey) (reads_text hvalue)
        (ih (fun f hf => hshort f (List.mem_cons_of_mem e hf))
          (p.insert e.1 e.2)) r

theorem reads_kind (hversion : h.version = currentVersion) (r : Running) :
    Reads readKind r [h.kind.tag, h.version] (· = (h.kind, h.version))
      (r.absorb [h.kind.tag, h.version]) := by
  have hbytes : [h.kind.tag, h.version] = [h.kind.tag] ++ [h.version] := rfl
  rw [readKind, hbytes, Running.absorb_append]
  refine reads_bind (reads_byte h.kind.tag r) ?_
  rintro _ rfl
  refine reads_last (reads_byte h.version _) ?_
  rintro _ rfl
  refine reads_known (Kind.parseTag_tag h.kind) ?_
  rw [if_pos hversion]
  exact reads_pure (P := (· = (h.kind, h.version))) rfl _

/-- A header is read of whatever is read as its number of entries and as these. -/
theorem reads_pieces (kind : Kind) {count entries : Bytes} {n : Nat}
    {p : Properties}
    (hcount : ∀ r, Reads (Vbyte.read 64) r count (· = n) (r.absorb count))
    (hentries : ∀ r, Reads (readProperties .empty n) r entries (· = p)
      (r.absorb entries))
    (strict : Bool) (r : Running) :
    Reads (read strict) r
      (sealed sealKind (magic ++
        ([kind.tag, currentVersion] ++ (count ++ entries))))
      (· = ⟨kind, currentVersion, p⟩)
      ((Running.start sealKind).absorb
        (magic ++ ([kind.tag, currentVersion] ++ (count ++ entries)))) := by
  rw [sealed, Running.absorb_append, Running.absorb_append,
    Running.absorb_append, List.append_assoc, List.append_assoc,
    List.append_assoc, read]
  refine reads_silent (reads_restart sealKind r) fun _ _ => ?_
  refine reads_bind (reads_readExact magic _) ?_
  rintro _ rfl
  rw [if_neg (fun hne => hne rfl)]
  refine reads_bind (reads_kind (h := new kind) rfl _) ?_
  rintro _ rfl
  refine reads_bind (hcount _) ?_
  rintro _ rfl
  refine reads_bind (hentries _) ?_
  rintro p rfl
  refine reads_last (reads_closePart .header strict _) fun _ _ => ?_
  exact reads_pure (P := (· = (⟨kind, currentVersion, p⟩ : Header))) rfl _

/-- A header comes back, whatever the running checksum was. -/
theorem reads_read (hportable : h.Portable) (strict : Bool) (r : Running) :
    Reads (read strict) r h.encode (· = h)
      ((Running.start sealKind).absorb h.body) := by
  obtain ⟨kind, version, p⟩ := h
  obtain rfl : version = currentVersion := hportable.version
  refine reads_pieces kind (Vbyte.reads_read (by decide) hportable.size)
    (fun r => ?_) strict r
  have hread := reads_properties hportable.texts .empty r
  rwa [show p.entries.foldl (fun p e => p.insert e.1 e.2) .empty = p from
    Properties.ofList_entries p] at hread

/-! ## Headers that are written -/

theorem get?_set (h : Header) (key value k : String) :
    (h.set key value).get? k = if k = key then some value else h.get? k :=
  Properties.get?_insert h.properties key value k

theorem portable_new (kind : Kind) : (new kind).Portable :=
  ⟨rfl, capacity_pos 64, fun _ he => absurd he List.not_mem_nil⟩

theorem size_set_le (h : Header) (key value : String) :
    (h.set key value).properties.size ≤ h.properties.size + 1 :=
      Properties.length_place_le ..

theorem portable_set (hportable : h.Portable)
    (hroom : h.properties.size + 1 < capacity 64) {key value : String}
    (hkey : Short key) (hvalue : Short value) : (h.set key value).Portable := by
  refine ⟨hportable.version, Nat.lt_of_le_of_lt (size_set_le h key value) hroom, ?_⟩
  intro e he
  rcases Properties.mem_place he with rfl | he
  · exact ⟨hkey, hvalue⟩
  · exact hportable.texts e he

/-- Texts that are set one after another make a header that comes back. -/
theorem portable_of_sets (kind : Kind) (es : List (String × String))
    (hsize : es.length < capacity 64)
    (hshort : ∀ e ∈ es, Short e.1 ∧ Short e.2) :
    (es.foldl (fun h e => h.set e.1 e.2) (new kind)).Portable := by
  suffices h : ∀ h :
      Header, h.Portable → h.properties.size + es.length < capacity 64 →
      (es.foldl (fun h e => h.set e.1 e.2) h).Portable from
    h (new kind) (portable_new kind)
      (by rwa [show (new kind).properties.size = 0 from rfl, Nat.zero_add])
  clear hsize
  induction es with
  | nil => exact fun h hportable _ => hportable
  | cons e es ih =>
      intro h hportable hroom
      rw [List.length_cons] at hroom
      have hset := size_set_le h e.1 e.2
      obtain ⟨hkey, hvalue⟩ := hshort e List.mem_cons_self
      exact ih (fun f hf => hshort f (List.mem_cons_of_mem e hf))
        (h.set e.1 e.2) (portable_set hportable (by omega) hkey hvalue) (by omega)

/-- The header of a section that is sealed with a check. -/
def leaf (kind : Kind) (checksum : Checksum) : Header :=
  (new kind).set "checksum" checksum.name

theorem portable_leaf (kind : Kind) (checksum : Checksum) :
    (leaf kind checksum).Portable :=
  portable_of_sets kind [("checksum", checksum.name)]
    (by cases checksum <;> decide) (by cases checksum <;> decide)

theorem checksum_leaf (kind : Kind) (checksum : Checksum) :
    (leaf kind checksum).checksum = .ok checksum := by
  have hget : (leaf kind checksum).get? "checksum" = some checksum.name := by
    rw [leaf, get?_set, if_pos rfl]
  rw [Header.checksum, hget]
  cases checksum <;> rfl

/-! ## Numbers in headers -/

theorem length_textBytes_ofList_le (cs : List Char) :
    (textBytes (String.ofList cs)).length ≤ 4 * cs.length := by
  rw [textBytes, String.toUTF8_eq_toByteArray, String.toByteArray_ofList,
    List.utf8Encode, List.data_toByteArray]
  show (cs.flatMap String.utf8EncodeChar).length ≤ 4 * cs.length
  induction cs with
  | nil => exact Nat.le_refl 0
  | cons c cs ih =>
      have hchar := c.utf8Size_le_four
      rw [List.flatMap_cons, List.length_append, String.length_utf8EncodeChar,
        List.length_cons]
      omega

theorem short_decimal {n : Nat} (h : n < capacity 64) :
    Short (Text.Numeral.decimal n) := by
  have hbytes := length_textBytes_ofList_le (Text.Numeral.digits n)
  have hdigits := Text.Numeral.length_digits_le h
  have hmax : maxTextSize = 65536 := rfl
  rw [Short, Text.Numeral.decimal]
  omega

theorem parseNat_eq {key : String} {n : Nat}
    (hget : h.get? key = some (Text.Numeral.decimal n))
    (hfits : n < capacity 64) : h.parseNat key = .ok n := by
  rw [parseNat, parse, hget]
  dsimp only
  rw [Text.Numeral.unsigned?_decimal hfits]

theorem parseId_eq {key : String} {id : Id}
    (hget : h.get? key = some (Text.Numeral.decimal id.toNat)) :
    h.parseId key = .ok id := by
  rw [parseId, parseNat_eq hget id.toNat_lt]
  exact congrArg Except.ok UInt64.ofNat_toNat

end Header

end TripleStore.Section
