import FlowProfile.Decimal.Basic

/-! Reading a number as a person types it: `5`, `.5`, `5.`, `-1e-3`, `inf`, `nan`. -/

namespace FlowProfile.Decimal

/-- An exponent with an optional sign, zero if there is none. -/
def typedExponent? : List Char → Option Int
  | [] => some 0
  | e :: cs =>
    let (negative, ds) := match cs with
      | '-' :: cs => (true, cs)
      | '+' :: cs => (false, cs)
      | cs => (false, cs)
    if (e = 'e' ∨ e = 'E') ∧ ds ≠ [] ∧ ds.all Char.isDigit then
      let n : Int := Nat.ofDigitChars 10 ds 0
      some (if negative then -n else n)
    else none

/-- Digits with at most one point, of which there is one digit at least. -/
def typedMagnitude? (cs : List Char) : Option (Nat × Int) :=
  let (whole, rest) := cs.span Char.isDigit
  let (places, rest) := match rest with
    | '.' :: rest => rest.span Char.isDigit
    | rest => ([], rest)
  if whole = [] ∧ places = [] then none
  else (typedExponent? rest).map fun e =>
    (Nat.ofDigitChars 10 (whole ++ places) 0, e - places.length)

def typedUnsigned? (negative : Bool) (cs : List Char) : Option Binary64 :=
  let signed (x : Binary64) := if negative then -x else x
  match String.ofList (cs.map Char.toLower) with
  | "inf" | "infinity" => some (signed .infinity)
  | "nan" => some (signed ⟨0x7FF8000000000000⟩)
  | _ => (typedMagnitude? cs).map fun (digits, exponent) =>
    toBinary64 ⟨negative, digits, exponent⟩

/-- A sign may come first. -/
def typed? (s : String) : Option Binary64 :=
  match s.toList with
  | '-' :: cs => typedUnsigned? true cs
  | '+' :: cs => typedUnsigned? false cs
  | cs => typedUnsigned? false cs

end FlowProfile.Decimal
