import TripleStore.Bytes.Scan

/-!
# What a scan can yield

Whatever a source holds, a scan that comes to its end has gone through all of
its steps (`bind_eq_ok`), and so what its last step promises of a value holds of
the value (`Yields`).
-/

namespace TripleStore.Scan

variable {α β : Type}

/-- Where the first step comes to its end, the second goes on. -/
theorem bind_of_ok {act : Scan α} {f : α → Scan β} {s s₁ : State} {a : α}
    (h : act s = .ok a s₁) :
    (act >>= f) s = f a s₁ := by
  show EStateM.bind act f s = _
  rw [EStateM.bind, h]

theorem bind_eq_ok {act : Scan α} {f : α → Scan β} {s s' : State} {b : β} :
    (act >>= f) s = .ok b s' ↔ ∃ a s₁, act s = .ok a s₁ ∧
      f a s₁ = .ok b s' := by
  show EStateM.bind act f s = _ ↔ _
  rw [EStateM.bind]
  cases act s with
  | ok a s₁ =>
      constructor
      · exact fun h => ⟨a, s₁, rfl, h⟩
      · rintro ⟨a', s', h, hf⟩
        cases h
        exact hf
  | error e s₁ =>
      constructor
      · intro h
        cases h
      · rintro ⟨a, s', h, -⟩
        cases h

theorem bind_eq_error {act : Scan α} {f : α → Scan β} {s s' : State}
    {e : Error} :
    (act >>= f) s = .error e s' ↔
      act s = .error e s' ∨ ∃ a s₁, act s = .ok a s₁ ∧
        f a s₁ = .error e s' := by
  show EStateM.bind act f s = _ ↔ _
  rw [EStateM.bind]
  cases act s with
  | ok a s₁ =>
      constructor
      · exact fun h => .inr ⟨a, s₁, rfl, h⟩
      · rintro (h | ⟨a', s₂, h, hf⟩)
        · cases h
        · cases h
          exact hf
  | error d s₁ =>
      constructor
      · intro h
        cases h
        exact .inl rfl
      · rintro (h | ⟨a, s₂, h, -⟩)
        · cases h
          rfl
        · cases h

/-- What is known without reading leaves the state as it is. -/
theorem lift_eq_ok {r : Except Error α} {s s' : State} {a : α} :
    (liftM r : Scan α) s = .ok a s' ↔ r = .ok a ∧ s' = s := by
  cases r with
  | ok b =>
      constructor
      · intro h
        cases h
        exact ⟨rfl, rfl⟩
      · rintro ⟨h, rfl⟩
        cases h
        rfl
  | error e =>
      constructor
      · intro h
        cases h
      · rintro ⟨h, -⟩
        cases h

theorem run_eq_ok {act : Scan α} {source : Source} {a : α} :
    (run act source).1.result = .ok a ↔
    ∃ s', act (.ofSource source) = .ok a s' := by
  rw [run, EStateM.run]
  cases act (.ofSource source) with
  | ok b s =>
      constructor
      · intro h
        cases h
        exact ⟨s, rfl⟩
      · rintro ⟨s', h⟩
        cases h
        rfl
  | error e s =>
      constructor
      · intro h
        cases h
      · rintro ⟨s', h⟩
        cases h

theorem run_eq_error {act : Scan α} {source : Source} {e : Error} :
    (run act source).1.result = .error e ↔
    ∃ s', act (.ofSource source) = .error e s' := by
  rw [run, EStateM.run]
  cases act (.ofSource source) with
  | ok b s =>
      constructor
      · intro h
        cases h
      · rintro ⟨s', h⟩
        cases h
  | error d s =>
      constructor
      · intro h
        cases h
        exact ⟨s, rfl⟩
      · rintro ⟨s', h⟩
        cases h
        rfl

/-- Every value that the scan can yield has a property. -/
def Yields (act : Scan α) (P : α → Prop) : Prop :=
  ∀ s a s', act s = .ok a s' → P a

/-- What the first step promises of its value may be used for the second. -/
theorem yields_then {act : Scan α} {f : α → Scan β} {P : α → Prop}
    {Q : β → Prop} (hact : Yields act P) (h : ∀ a, P a → Yields (f a) Q) :
    Yields (act >>= f) Q := by
  intro s b s' hb
  obtain ⟨a, s₁, ha, hf⟩ := bind_eq_ok.mp hb
  exact h a (hact s a s₁ ha) s₁ b s' hf

theorem yields_bind {act : Scan α} {f : α → Scan β} {P : β → Prop}
    (h : ∀ a, Yields (f a) P) :
    Yields (act >>= f) P :=
  yields_then (P := fun _ => True) (fun _ _ _ _ => trivial) fun a _ => h a

theorem yields_pure {a : α} {P : α → Prop} (h : P a) : Yields (pure a) P := by
  intro s b s' hb
  cases hb
  exact h

theorem yields_throw (e : Error) (P : α → Prop) : Yields (throw e) P := by
  intro s a s' h
  cases h

theorem yields_whole {kind : Section.Kind} {act : Scan α} {P : α → Prop}
    (h : Yields act P) :
    Yields (whole kind act) P := by
  intro s a s' ha
  obtain ⟨a', s₁, hact, hrest⟩ := bind_eq_ok.mp ha
  obtain ⟨n, s₂, -, hend⟩ := bind_eq_ok.mp hrest
  split at hend
  · cases hend
    exact h s _ s₁ hact
  · cases hend

theorem of_run {act : Scan α} {P : α → Prop} (h : Yields act P)
    {source : Source} {a : α} (ha : (run act source).1.result = .ok a) : P a := by
  obtain ⟨s', ha⟩ := run_eq_ok.mp ha
  exact h _ _ _ ha

end TripleStore.Scan
