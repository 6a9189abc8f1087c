import TripleStore.Error

/-!
# Outcomes with warnings

An operation ends in a value or an error, and the warnings given on the way stay
either way, in the order in which they arose.
-/

namespace TripleStore

structure Outcome (α : Type) where
  warnings : List Warning
  result : Except Error α

namespace Outcome

variable {α β : Type}

def ok (a : α) : Outcome α := ⟨[], .ok a⟩

def fail (e : Error) : Outcome α := ⟨[], .error e⟩

def ofExcept (result : Except Error α) : Outcome α := ⟨[], result⟩

def bind (o : Outcome α) (f : α → Outcome β) : Outcome β :=
  match o.result with
  | .error e => ⟨o.warnings, .error e⟩
  | .ok a => ⟨o.warnings ++ (f a).warnings, (f a).result⟩

instance : Monad Outcome where
  pure := ok
  bind := bind

instance : MonadExceptOf Error Outcome where
  throw := fail
  tryCatch o handle :=
    match o.result with
    | .ok _ => o
    | .error e => ⟨o.warnings ++ (handle e).warnings, (handle e).result⟩

instance : MonadLift (Except Error) Outcome where
  monadLift := ofExcept

end Outcome

end TripleStore
