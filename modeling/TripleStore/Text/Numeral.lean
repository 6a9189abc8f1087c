import TripleStore.Capacity

/-!
# Decimal numerals

Writing uses the fewest digits. Reading also takes leading zeros and one leading
`+`; a leading `-` is taken only where negative numbers are allowed. Nothing
else may stand in a numeral, and a number outside the given width is refused.
-/

namespace TripleStore.Text.Numeral

def digit (d : Nat) : Char := Char.ofNat ('0'.toNat + d)

def digitValue? (c : Char) : Option Nat :=
  if '0' ≤ c ∧ c ≤ '9' then some (c.toNat - '0'.toNat) else none

def digits (n : Nat) : List Char :=
  if n < 10 then [digit n] else digits (n / 10) ++ [digit (n % 10)]

def decimal (n : Nat) : String := String.ofList (digits n)

/-- Continues the number `n` with the digits `cs`. -/
def extend? (n : Nat) : List Char → Option Nat
  | [] => some n
  | c :: cs => do extend? (10 * n + (← digitValue? c)) cs

/-- At least one digit and nothing but digits. -/
def ofDigits? : List Char → Option Nat
  | [] => none
  | cs => extend? 0 cs

def magnitude? : List Char → Option Nat
  | '+' :: cs => ofDigits? cs
  | cs => ofDigits? cs

/-- A number below `capacity bits`. -/
def unsigned? (bits : Nat) (text : String) : Option Nat := do
  let n ← magnitude? text.toList
  if n < capacity bits then some n else none

/-- A number from `-capacity (bits - 1)` up to but not including `capacity (bits
- 1)`. -/
def signed? (bits : Nat) (text : String) : Option Int :=
  match text.toList with
  | '-' :: cs => do
    let n ← ofDigits? cs
    if n ≤ capacity (bits - 1) then some (-(n : Int)) else none
  | cs => do
    let n ← magnitude? cs
    if n < capacity (bits - 1) then some (n : Int) else none

end TripleStore.Text.Numeral
