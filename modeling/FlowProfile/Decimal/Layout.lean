import FlowProfile.Decimal.Shortest

/-! How decimals are laid out as text: one function, and a record of what may vary. -/

namespace FlowProfile.Decimal

/-- A decimal whose first digit has the power of ten `k` is written without an
exponent when `positional k` holds. -/
structure Layout where
  tie : Tie
  positional : Int → Bool
  /-- Whole numbers end in a point and a zero. -/
  wholePoint : Bool

def zeros (n : Nat) : List Char := List.replicate n '0'

def positionalText (l : Layout) (d : Decimal) : List Char :=
  let ds := Nat.toDigits 10 d.digits
  if 0 ≤ d.exponent then
    ds ++ zeros d.exponent.toNat ++ (if l.wholePoint then ['.', '0'] else [])
  else
    let places := (-d.exponent).toNat
    if places < ds.length then
      ds.take (ds.length - places) ++ '.' :: ds.drop (ds.length - places)
    else '0' :: '.' :: zeros (places - ds.length) ++ ds

def scientificText (d : Decimal) : List Char :=
  let ds := Nat.toDigits 10 d.digits
  let k := d.leading
  ds.take 1 ++ (if ds.length = 1 then [] else '.' :: ds.drop 1) ++
    'e' :: (if k < 0 then '-' else '+') :: Nat.toDigits 10 k.natAbs

def Layout.text (l : Layout) (d : Decimal) : List Char :=
  let body :=
    if d.digits = 0 ∨ l.positional d.leading then positionalText l d else scientificText d
  if d.negative then '-' :: body else body

/-- Reports never write an exponent, and whole numbers as integers. -/
def report : Layout := ⟨.up, fun _ => true, false⟩

/-- Documents write an exponent below 10⁻⁵ and from 10¹⁶ on. -/
def document : Layout := ⟨.even, fun k => -5 ≤ k ∧ k < 16, true⟩

/-- The text of a number in a report. -/
def reported (x : Binary64) : String :=
  if x.isNaN then "NaN"
  else if x.isFinite then String.ofList (report.text (shortest report.tie x))
  else if x.isNegative then "-inf"
  else "inf"

end FlowProfile.Decimal
