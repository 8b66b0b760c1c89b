/-! Decimal integers: digits, and an optional sign before them. -/

namespace FlowProfile.Numeral

/-- A value only for one or more digits. -/
def natural? (cs : List Char) : Option Nat :=
  if cs ≠ [] ∧ cs.all Char.isDigit then some (Nat.ofDigitChars 10 cs 0) else none

/-- A plus sign may come first. -/
def unsigned? : List Char → Option Nat
  | '+' :: cs => natural? cs
  | cs => natural? cs

/-- A plus or a minus sign may come first. -/
def signed? : List Char → Option Int
  | '-' :: cs => (natural? cs).map fun n => -(n : Int)
  | cs => (unsigned? cs).map Int.ofNat

/-- An unsigned integer below the bound. -/
def below? (bound : Nat) (s : String) : Option Nat :=
  (unsigned? s.toList).filter (· < bound)

/-- A signed integer of the given number of bits. -/
def within? (bits : Nat) (s : String) : Option Int :=
  (signed? s.toList).filter fun i => -Int.pow 2 (bits - 1) ≤ i ∧ i < Int.pow 2 (bits - 1)

theorem natural?_toDigits (n : Nat) : natural? (Nat.toDigits 10 n) = some n := by
  have hne : Nat.toDigits 10 n ≠ [] := by simp [Nat.toDigits_ne_nil]
  have hall : (Nat.toDigits 10 n).all Char.isDigit := by
    simp only [List.all_eq_true]
    exact fun c hc => Nat.isDigit_of_mem_toDigits (by decide) (by decide) hc
  simp [natural?, hne, hall, Nat.ofDigitChars_ten_toDigits]

end FlowProfile.Numeral
