import TripleStore.Proofs.Bytes.Passes

/-!
# Strict and lenient scans

A check that does not match ends a strict scan, and a lenient one goes on with a
warning. Nothing else tells them apart, so the strict scan is the lenient one
cut off at its first such warning (`Enforces`), and this passes from the steps
of a scan to the whole (`enforces_bind`). What comes of the two is compared in
`Outcome.Enforced`.
-/

namespace TripleStore

/-! ## Outcomes -/

namespace Outcome

variable {α β : Type} {lenient strict : Outcome α}

/-- The part whose check a warning is about. -/
def mismatch? : Warning → Option Section.Part
  | .checksumMismatch part => some part
  | .indexUnavailable _ => none

/-- The parts whose checks did not match, in the order of the warnings. -/
def mismatches (o : Outcome α) : List Section.Part :=
  o.warnings.filterMap mismatch?

/-- Strictness changes nothing where no check fails, and where some do, the
first of them is what the strict outcome fails for. -/
structure Enforced (lenient strict : Outcome α) : Prop where
  clean : lenient.mismatches = [] → strict = lenient
  caught : ∀ part parts, lenient.mismatches = part :: parts →
    strict = fail (.checksumMismatch part)
  accepted : ∀ a, strict.result = .ok a → lenient.result = .ok a ∧
    lenient.mismatches = []

/-- A strict outcome with a value is the lenient one. -/
theorem enforced_of (hclean : lenient.mismatches = [] → strict = lenient)
    (hcaught : ∀ part parts, lenient.mismatches = part :: parts →
      strict = fail (.checksumMismatch part)) :
    lenient.Enforced strict where
  clean := hclean
  caught := hcaught
  accepted := by
    intro a ha
    cases hparts : lenient.mismatches with
    | nil => exact ⟨hclean hparts ▸ ha, rfl⟩
    | cons part parts =>
        rw [hcaught part parts hparts] at ha
        cases ha

theorem mismatches_bind_ok {f : α → Outcome β} {a : α}
    (h : lenient.result = .ok a) :
    (lenient >>= f).mismatches = lenient.mismatches ++ (f a).mismatches := by
  show (lenient.bind f).mismatches = _
  rw [Outcome.bind, h]
  exact List.filterMap_append

theorem mismatches_bind_error {f : α → Outcome β} {e : Error}
    (h : lenient.result = .error e) :
    (lenient >>= f).mismatches = lenient.mismatches := by
  show (lenient.bind f).mismatches = _
  rw [Outcome.bind, h]
  rfl

/-- What comes after checks nothing any more. -/
theorem Enforced.bind (h : lenient.Enforced strict) {f : α → Outcome β}
    (hf : ∀ a, (f a).mismatches = []) :
    (lenient >>= f).Enforced (strict >>= f) := by
  have hmismatches : (lenient >>= f).mismatches = lenient.mismatches := by
    cases hresult : lenient.result with
    | ok a => rw [mismatches_bind_ok hresult, hf, List.append_nil]
    | error e => exact mismatches_bind_error hresult
  apply enforced_of
  · intro hnil
    rw [h.clean (hmismatches ▸ hnil)]
  · intro part parts hparts
    rw [h.caught part parts (hmismatches ▸ hparts)]
    rfl

end Outcome

/-! ## Scans -/

namespace Scan

variable {α β : Type}

/-- Where a scan stops, with a value or an error. -/
def stop : EStateM.Result Error State α → State
  | .ok _ s => s
  | .error _ s => s

/-- What the strict scan comes to if the lenient one warns of `parts`. -/
def Verdict (warnings : List Warning)
    (lenient strict : EStateM.Result Error State α) :
    List Section.Part → Prop
  | [] => strict = lenient
  | part :: _ =>
    ∃ t, t.warnings = warnings ∧ strict = .error (.checksumMismatch part) t

/-- The strict scan is the lenient one cut off at the first part whose check
does not match. The lenient one warns of such parts and of nothing else. -/
def Enforces (lenient strict : Scan α) : Prop :=
  ∀ s, ∃ parts, (stop (lenient s)).warnings = s.warnings ++
    parts.map .checksumMismatch ∧
    Verdict s.warnings (lenient s) (strict s) parts

variable {lenient strict act : Scan α} {f g : α → Scan β}
  {P : Bytes → α → α → Prop}

/-- A check that fails ends the strict scan, whatever comes after. -/
theorem Verdict.bind_cons {s : State} {r : EStateM.Result Error State α}
    {r' : EStateM.Result Error State β} {part : Section.Part}
    {parts parts' : List Section.Part}
    (h : Verdict s.warnings r (act s) (part :: parts)) :
    Verdict s.warnings r' ((act >>= f) s) (part :: parts') := by
  obtain ⟨t, hwarnings, hact⟩ := h
  exact ⟨t, hwarnings, bind_eq_error.mpr (.inl hact)⟩

theorem enforces_bind (hact : Enforces lenient strict)
    (hf : ∀ a, Enforces (f a) (g a)) :
    Enforces (lenient >>= f) (strict >>= g) := by
  intro s
  obtain ⟨parts, hwarnings, hverdict⟩ := hact s
  cases hlenient : lenient s with
  | error e t =>
      rw [hlenient] at hwarnings hverdict
      rw [show (lenient >>= f) s = .error e t from bind_eq_error.mpr
        (.inl hlenient)]
      refine ⟨parts, hwarnings, ?_⟩
      cases parts with
      | nil => exact bind_eq_error.mpr (.inl hverdict)
      | cons part parts => exact hverdict.bind_cons
  | ok a s₁ =>
      rw [hlenient] at hwarnings hverdict
      change s₁.warnings = _ at hwarnings
      obtain ⟨parts', hwarnings', hverdict'⟩ := hf a s₁
      rw [bind_of_ok hlenient]
      refine ⟨parts ++ parts', ?_, ?_⟩
      · rw [hwarnings', hwarnings, List.map_append, List.append_assoc]
      · -- the strict scan goes on only if nothing was wrong before, and then
        -- from the same state
        cases parts with
        | nil =>
            rw [List.map_nil, List.append_nil] at hwarnings
            rw [bind_of_ok hverdict, List.nil_append, ← hwarnings]
            exact hverdict'
        | cons part parts => exact hverdict.bind_cons

/-! ## Steps that are no checks -/

theorem enforces_of_quiet (h : ∀ s, (stop (act s)).warnings = s.warnings) :
    Enforces act act :=
  fun s => ⟨[], by rw [h, List.map_nil, List.append_nil], rfl⟩

theorem Passes.quiet {act' : Scan α} (h : Passes P act act') (s : State) :
    (stop (act s)).warnings = s.warnings := by
  cases hact : act s with
  | ok a s' =>
      obtain ⟨bytes, -, -, -, rfl⟩ := h.ok hact
      rfl
  | error e s' => exact h.error hact

theorem enforces_of_plain (h : Plain act) : Enforces act act :=
  enforces_of_quiet h.quiet

theorem enforces_pure (a : α) : Enforces (pure a) (pure a) :=
  enforces_of_plain (plain_pure a)

theorem enforces_throw (e : Error) : Enforces (throw e : Scan α) (throw e) :=
  enforces_of_plain (plain_throw e)

theorem enforces_lift (r : Except Error α) :
    Enforces (liftM r : Scan α) (liftM r) :=
  enforces_of_plain (plain_lift r)

theorem enforces_restart (kind : Checksum) :
    Enforces (restart kind) (restart kind) :=
  enforces_of_quiet fun _ => rfl

theorem enforces_words (mode : LoadMode) (n : Nat) :
    Enforces (Words.read mode n) (Words.read mode n) :=
  enforces_of_quiet (Words.passes_read mode mode n).quiet

/-! ## Checks -/

theorem enforces_verify : Enforces verify verify := by
  refine enforces_of_quiet fun s => ?_
  rcases verify_cases s .heap with ⟨found, -, hverify, -⟩ |
    ⟨e, t, hwarnings, hverify, -⟩
  · rw [hverify]
    rfl
  · rw [hverify]
    exact hwarnings

/-- This is the one place where the two differ. -/
theorem enforces_closePart (part : Section.Part) :
    Enforces (closePart part false) (closePart part true) := by
  refine enforces_bind enforces_verify fun matching => ?_
  cases matching with
  | true => exact enforces_pure ()
  | false => exact fun s => ⟨[part], rfl, s, rfl, rfl⟩

/-! ## Whole sources -/

theorem enforces_whole (kind : Section.Kind) (h : Enforces lenient strict) :
    Enforces (whole kind lenient) (whole kind strict) := by
  refine enforces_bind h fun a =>
    enforces_bind (enforces_of_quiet fun _ => rfl) fun n => ?_
  split
  · exact enforces_pure a
  · exact enforces_throw _

theorem enforced_run (h : Enforces lenient strict) (source : Source) :
    (run lenient source).1.Enforced (run strict source).1 := by
  obtain ⟨parts, hwarnings, hverdict⟩ := h (.ofSource source)
  have hmismatches : (run lenient source).1.mismatches = parts := by
    have hparts :
        (parts.map Warning.checksumMismatch).filterMap
          Outcome.mismatch? = parts := by
      rw [List.filterMap_map]
      exact List.filterMap_some
    rw [Outcome.mismatches, run, EStateM.run]
    cases hlenient : lenient (.ofSource source) with
    | ok a s =>
        rw [hlenient] at hwarnings
        exact (congrArg (List.filterMap Outcome.mismatch?) hwarnings).trans hparts
    | error e s =>
        rw [hlenient] at hwarnings
        exact (congrArg (List.filterMap Outcome.mismatch?) hwarnings).trans hparts
  apply Outcome.enforced_of
  · intro hnil
    obtain rfl := hmismatches.symm.trans hnil
    rw [run, run, EStateM.run, EStateM.run,
      show strict _ = lenient _ from hverdict]
  · intro part parts' hcons
    obtain rfl := hmismatches.symm.trans hcons
    obtain ⟨t, ht, hstrict⟩ := hverdict
    rw [run, EStateM.run, hstrict]
    dsimp only
    rw [ht]
    rfl

end Scan

end TripleStore
