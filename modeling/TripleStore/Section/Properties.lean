/-!
# Properties

The texts that a section's header carries, by key. Keys are kept in ascending
order, so the same properties are always written the same way.
-/

namespace TripleStore.Section

structure Properties where
  entries : List (String × String)
  sorted : entries.Pairwise (·.1 < ·.1)

namespace Properties

def empty : Properties := ⟨[], .nil⟩

def size (p : Properties) : Nat := p.entries.length

def get? (p : Properties) (key : String) : Option String := p.entries.lookup key

/-- Puts an entry in its place; an entry with the same key gives way. -/
def place (key value : String) : List (String × String) → List (String × String)
  | [] => [(key, value)]
  | e :: es =>
    if key = e.1 then (key, value) :: es
    else if key < e.1 then (key, value) :: e :: es
    else e :: place key value es

theorem mem_place {key value : String} {es : List (String × String)}
    {e : String × String} (h : e ∈ place key value es) :
    e = (key, value) ∨ e ∈ es := by
  induction es with
  | nil => simpa [place] using h
  | cons f fs ih =>
    rw [place] at h
    split at h
    · rcases List.mem_cons.1 h with h | h <;> simp [h]
    · split at h
      · simpa using h
      · rcases List.mem_cons.1 h with h | h
        · simp [h]
        · rcases ih h with h | h <;> simp [h]

theorem place_sorted (key value : String) {es : List (String × String)}
    (h : es.Pairwise (·.1 < ·.1)) :
    (place key value es).Pairwise (·.1 < ·.1) := by
  induction es with
  | nil => simp [place]
  | cons f fs ih =>
    obtain ⟨hf, hfs⟩ := List.pairwise_cons.1 h
    rw [place]
    split
    · next heq => exact List.pairwise_cons.2 ⟨fun e he => heq ▸ hf e he, hfs⟩
    · next hne =>
      split
      · next hlt =>
        refine List.pairwise_cons.2 ⟨fun e he => ?_, h⟩
        rcases List.mem_cons.1 he with rfl | he
        · exact hlt
        · exact String.lt_trans hlt (hf e he)
      · next hge =>
        refine List.pairwise_cons.2 ⟨fun e he => ?_, ih hfs⟩
        rcases mem_place he with rfl | he
        · exact Decidable.byContradiction fun hle =>
            hne (String.le_antisymm (String.not_lt.1 hle) (String.not_lt.1 hge))
        · exact hf e he

def insert (p : Properties) (key value : String) : Properties :=
  ⟨place key value p.entries, place_sorted key value p.sorted⟩

def ofList (entries : List (String × String)) : Properties :=
  entries.foldl (fun p e => p.insert e.1 e.2) empty

end Properties

end TripleStore.Section
