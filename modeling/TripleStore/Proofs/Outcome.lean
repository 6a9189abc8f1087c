import TripleStore.Outcome

/-!
# Results one after another

A result that goes on after another is there only if both are.
-/

namespace TripleStore

section Except

variable {ε α β : Type}

theorem bind_eq_ok {r : Except ε α} {f : α → Except ε β} {b : β} :
    (r >>= f) = .ok b ↔ ∃ a, r = .ok a ∧ f a = .ok b := by
  cases r with
  | error e =>
      constructor
      · intro h
        cases h
      · rintro ⟨a, h, -⟩
        cases h
  | ok a =>
      constructor
      · exact fun h => ⟨a, rfl, h⟩
      · rintro ⟨a', h, hf⟩
        cases h
        exact hf

/-- Steps that all succeed do so one after another. -/
theorem mapM_eq_ok {f : α → Except ε β} {g : α → β} {l : List α}
    (h : ∀ a ∈ l, f a = .ok (g a)) :
    l.mapM f = .ok (l.map g) := by
  induction l with
  | nil => rfl
  | cons a l ih =>
      obtain ⟨ha, hl⟩ := List.forall_mem_cons.mp h
      rw [List.mapM_cons, ha, ih hl]
      rfl

theorem toOption_eq_some {r : Except ε α} {a : α} :
    r.toOption = some a ↔ r = .ok a := by
  cases r with
  | error e => simp [Except.toOption]
  | ok b => simp [Except.toOption]

end Except

namespace Outcome

variable {α β : Type}

theorem result_bind (o : Outcome α) (f : α → Outcome β) :
    (o >>= f).result = o.result >>= fun a => (f a).result := by
  show (o.bind f).result = _
  rw [Outcome.bind]
  cases o.result <;> rfl

theorem result_bind_eq_ok {o : Outcome α} {f : α → Outcome β} {b : β} :
    (o >>= f).result = .ok b ↔
    ∃ a, o.result = .ok a ∧ (f a).result = .ok b := by
  rw [result_bind, bind_eq_ok]

end Outcome

end TripleStore
