import FlowProfile.Decimal.Basic

/-!
The shortest decimal that reads back as a given binary64 number.

A number is nearest to every real of an interval around it. The grids of decimals
with 1, 2, 3, … digits are tried in turn, and the first that meets the interval
gives the digits. Only the two points of a grid next to the number can be nearest.
-/

namespace FlowProfile.Decimal

/-- Which of two equally near points is taken. -/
inductive Tie where
  | even
  | up
deriving DecidableEq, Repr

/-- The reals that round to `value / scale`. The ends belong to it when `closed` holds. -/
structure Rounding where
  low : Nat
  value : Nat
  high : Nat
  scale : Nat
  closed : Bool

/-- Below a power of two the spacing of the numbers is halved. -/
def Rounding.ofBinary64 (x : Binary64) : Rounding :=
  let biased := x.exponentBits
  let fraction := x.fractionBits
  let m := if biased = 0 then fraction else fraction + (1 <<< 52)
  let q : Int := max (biased : Int) 1 - 1077
  let down := if fraction = 0 ∧ 1 < biased then 1 else 2
  let unit := 1 <<< q.toNat
  { low := (4 * m - down) * unit
    value := 4 * m * unit
    high := (4 * m + 2) * unit
    scale := 1 <<< (-q).toNat
    closed := m % 2 = 0 }

/-- The power of ten of the first digit. -/
def Rounding.leading (r : Rounding) : Int :=
  if r.scale ≤ r.value then (width (r.value / r.scale) : Int) - 1
  else -(width (r.scale / r.value) : Int)

/-- Does the point `d · unit` round to the number? -/
def Rounding.meets (r : Rounding) (factor unit d : Nat) : Bool :=
  let p := d * unit
  if r.closed then r.low * factor ≤ p ∧ p ≤ r.high * factor
  else r.low * factor < p ∧ p < r.high * factor

/-- The digits of the nearer point of the grid `10 ^ exponent` that rounds to the number. -/
def Rounding.onGrid (r : Rounding) (tie : Tie) (exponent : Int) : Option Nat :=
  let factor := Nat.pow 10 (-exponent).toNat
  let unit := r.scale * Nat.pow 10 exponent.toNat
  let d := r.value * factor / unit
  let below := r.value * factor - d * unit
  let above := (d + 1) * unit - r.value * factor
  match r.meets factor unit d, r.meets factor unit (d + 1) with
  | false, false => none
  | true, false => some d
  | false, true => some (d + 1)
  | true, true =>
    if below < above then some d
    else if above < below then some (d + 1)
    else match tie with
      | .even => some (if d % 2 = 0 then d else d + 1)
      | .up => some (d + 1)

/-- Zeros at the end of the digits go into the exponent. -/
def trim (digits : Nat) (exponent : Int) : Nat × Int :=
  if h : digits ≠ 0 ∧ digits % 10 = 0 then trim (digits / 10) (exponent + 1)
  else (digits, exponent)
termination_by digits
decreasing_by omega

/-- The shortest decimal of a finite number. Seventeen digits tell all numbers apart. -/
def shortest (tie : Tie) (x : Binary64) : Decimal :=
  if x.exponentBits = 0 ∧ x.fractionBits = 0 then ⟨x.isNegative, 0, 0⟩
  else
    let r := Rounding.ofBinary64 x
    let hit := (List.range 17).findSome? fun (n : Nat) =>
      let exponent := r.leading - n
      (r.onGrid tie exponent).map (trim · exponent)
    let (digits, exponent) := hit.getD (0, 0)
    ⟨x.isNegative, digits, exponent⟩

end FlowProfile.Decimal
