import TripleStore.Proofs.Bytes.Passes

/-!
# Scans that end alike

Two scans of the same bytes in two places are twins if they stop at the same
position with the same warnings, for the same error or with values that are
related (`Twins`). What they read may differ only in where the words are, and
every step passes this on (`twins_bind`). Of a whole run the two outcomes agree
(`agrees_run`).
-/

namespace TripleStore

/-! ## Outcomes -/

namespace Outcome

variable {α β γ δ : Type} {R : α → β → Prop} {S : γ → δ → Prop} {o : Outcome α}
  {o' : Outcome β}

/-- Two outcomes have the same warnings, and they are the same error or related
values. -/
structure Agrees (R : α → β → Prop) (o : Outcome α) (o' : Outcome β) :
    Prop where
  warnings : o.warnings = o'.warnings
  error : ∀ e, o.result = .error e ↔ o'.result = .error e
  value : ∀ a, o.result = .ok a → ∃ b, o'.result = .ok b ∧ R a b

theorem agrees_ok {a : α} {b : β} (h : R a b) (warnings : List Warning) :
    Agrees R ⟨warnings, .ok a⟩ ⟨warnings, .ok b⟩ where
  warnings := rfl
  error := by
    intro e
    constructor
    · rintro ⟨⟩
    · rintro ⟨⟩
  value := by
    rintro _ ⟨⟩
    exact ⟨b, rfl, h⟩

theorem agrees_error (e : Error) (warnings : List Warning) :
    Agrees R (⟨warnings, .error e⟩ : Outcome α)
      (⟨warnings, .error e⟩ : Outcome β) where
  warnings := rfl
  error := by
    intro d
    constructor
    · rintro ⟨⟩
      rfl
    · rintro ⟨⟩
      rfl
  value := by
    rintro _ ⟨⟩

theorem Agrees.imp (h : Agrees R o o') {R' : α → β → Prop}
    (himp : ∀ a b, o.result = .ok a → o'.result = .ok b → R a b → R' a b) :
    Agrees R' o o' where
  warnings := h.warnings
  error := h.error
  value := by
    intro a ha
    obtain ⟨b, hb, hab⟩ := h.value a ha
    exact ⟨b, hb, himp a b ha hb hab⟩

/-- Outcomes that agree go on to agree if what follows does on related values. -/
theorem Agrees.bind (h : Agrees R o o') {f : α → Outcome γ} {g : β → Outcome δ}
    (hf : ∀ a b, R a b → Agrees S (f a) (g b)) :
    Agrees S (o >>= f) (o' >>= g) := by
  show Agrees S (o.bind f) (o'.bind g)
  rw [Outcome.bind, Outcome.bind, h.warnings]
  cases hresult : o.result with
  | error e =>
      rw [(h.error e).mp hresult]
      exact agrees_error e _
  | ok a =>
      obtain ⟨b, hb, hab⟩ := h.value a hresult
      have hnext := hf a b hab
      rw [hb]
      exact ⟨congrArg _ hnext.warnings, hnext.error, hnext.value⟩

end Outcome

/-! ## Scans -/

namespace Scan

variable {α β γ δ : Type} {R : α → β → Prop} {S : γ → δ → Prop}
  {P : Bytes → α → β → Prop} {act : Scan α} {act' : Scan β} {f : α → Scan γ}
  {f' : β → Scan δ}

/-- The two scans, of the same bytes in two places, stop in the same state, with
related values or the same error. -/
def Twins (R : α → β → Prop) (act : Scan α) (act' : Scan β) : Prop :=
  ∀ s residence,
    (∃ a b t, R a b ∧ act s = .ok a t ∧
      act' (s.moved residence) = .ok b (t.moved residence)) ∨
    ∃ e t, act s = .error e t ∧
      act' (s.moved residence) = .error e (t.moved residence)

theorem twins_of_passes (h : Passes P act act')
    (hP : ∀ bytes a b, P bytes a b → R a b) :
    Twins R act act' := by
  intro s residence
  rcases h s residence with ⟨bytes, a, b, hab, -, hact⟩ | ⟨e, t, -, hact⟩
  · exact .inl ⟨a, b, _, hP bytes a b hab, hact⟩
  · exact .inr ⟨e, t, hact⟩

theorem twins_of_plain {act : Scan α} (h : Plain act) : Twins Eq act act :=
  twins_of_passes h fun _ _ _ hab => hab

theorem twins_pure {a : α} {b : β} (h : R a b) : Twins R (pure a) (pure b) :=
  fun s _ => .inl ⟨a, b, s, h, rfl, rfl⟩

theorem twins_throw (e : Error) : Twins R (throw e) (throw e) :=
  fun s _ => .inr ⟨e, s, rfl, rfl⟩

theorem twins_bind (hact : Twins R act act')
    (hf : ∀ a b, R a b → Twins S (f a) (f' b)) :
    Twins S (act >>= f) (act' >>= f') := by
  intro s residence
  rcases hact s residence with ⟨a, b, t, hab, hact, hact'⟩ | ⟨e, t, hact, hact'⟩
  · rw [bind_of_ok hact, bind_of_ok hact']
    exact hf a b hab t residence
  · exact .inr ⟨e, t, bind_eq_error.mpr (.inl hact),
      bind_eq_error.mpr (.inl hact')⟩

/-- What the two have in common need not be told apart. -/
theorem twins_same {act : Scan α} {f : α → Scan γ} {f' : α → Scan δ}
    (hact : Twins Eq act act) (hf : ∀ a, Twins S (f a) (f' a)) :
    Twins S (act >>= f) (act >>= f') :=
  twins_bind hact fun a _ h => h ▸ hf a

theorem twins_lift (r : Except Error α) :
    Twins Eq (liftM r : Scan α) (liftM r) :=
  twins_of_plain (plain_lift r)

theorem twins_restart (kind : Checksum) :
    Twins Eq (restart kind) (restart kind) :=
  fun s _ => .inl ⟨(), (), { s with running := .start kind }, rfl, rfl, rfl⟩

theorem twins_verify : Twins Eq verify verify := by
  intro s residence
  rcases verify_cases s residence with ⟨found, -, hverify⟩ | ⟨e, t, -, hverify⟩
  · exact .inl ⟨_, _, _, rfl, hverify⟩
  · exact .inr ⟨e, t, hverify⟩

theorem twins_closePart (part : Section.Part) (strict : Bool) :
    Twins Eq (closePart part strict) (closePart part strict) := by
  refine twins_same twins_verify fun matching => ?_
  split
  · exact twins_pure rfl
  · split
    · exact twins_throw _
    · exact fun s _ => .inl
        ⟨(), (), { s with warnings := s.warnings ++ [.checksumMismatch part] },
          rfl, rfl, rfl⟩

theorem twins_whole (kind : Section.Kind) (h : Twins R act act') :
    Twins R (whole kind act) (whole kind act') := by
  have hleft : Twins Eq left left := fun s _ => .inl ⟨_, _, s, rfl, rfl, rfl⟩
  refine twins_bind h fun a b hab => twins_same hleft fun n => ?_
  split
  · exact twins_pure hab
  · exact twins_throw _

/-- Of a whole run it does not matter where the bytes are. -/
theorem agrees_run (h : Twins R act act') (source : Source)
    (residence : Residence) :
    (run act source).1.Agrees R (run act' (source.moved residence)).1 := by
  rw [run, run, EStateM.run, EStateM.run]
  rcases h (.ofSource source) residence with ⟨a, b, t, hab, hact, hact'⟩ |
    ⟨e, t, hact, hact'⟩
  · rw [hact, show act' (.ofSource (source.moved residence)) = _ from hact']
    exact Outcome.agrees_ok hab t.warnings
  · rw [hact, show act' (.ofSource (source.moved residence)) = _ from hact']
    exact Outcome.agrees_error e t.warnings

end Scan

end TripleStore
