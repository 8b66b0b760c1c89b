import FlowProfile.Binary64

/-! Signed decimals, and the binary64 number nearest to one. -/

namespace FlowProfile

/-- The number `digits · 10 ^ exponent`, with a sign that zero has too. -/
structure Decimal where
  negative : Bool
  digits : Nat
  exponent : Int
deriving DecidableEq, Repr

namespace Decimal

/-- The number of digits, one for zero. -/
def width (n : Nat) : Nat := (Nat.toDigits 10 n).length

/-- The power of ten of the first digit. -/
def leading (d : Decimal) : Int := d.exponent + width d.digits - 1

/-- Far outside the range of exponents the result is zero or infinite at once. -/
def magnitude (digits : Nat) (exponent : Int) : Binary64 :=
  let leading := exponent + width digits
  if digits = 0 ∨ leading < -400 then .zero
  else if 400 < leading then .infinity
  else .ofFloat (Float.ofScientific digits (exponent < 0) exponent.natAbs)

/-- The nearest number, infinite beyond the largest finite one. -/
def toBinary64 (d : Decimal) : Binary64 :=
  let x := magnitude d.digits d.exponent
  if d.negative then -x else x

end Decimal

end FlowProfile
