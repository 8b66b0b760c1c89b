import FlowProfile.Failure
import FlowProfile.Text.Numeral

/-! Weights of blocks, written `FUNCTION:BLOCK=WEIGHT`. -/

namespace FlowProfile

/-- A weight that is added whenever the block ends. -/
structure BlockWeight where
  function : String
  block : BlockId
  value : Operand
deriving DecidableEq, Repr

namespace BlockWeight

/-- The text before and after the first occurrence of a character. -/
def splitFirst? (c : Char) (cs : List Char) : Option (List Char × List Char) :=
  match cs.dropWhile (· != c) with
  | [] => none
  | _ :: rest => some (cs.takeWhile (· != c), rest)

/-- The text before and after the last occurrence of a character. -/
def splitLast? (c : Char) (cs : List Char) : Option (List Char × List Char) :=
  (splitFirst? c cs.reverse).map fun (tail, start) => (start.reverse, tail.reverse)

/-- An integer is a constant, and any other text the name of a variable. -/
def value? (s : String) : Option Operand :=
  match Numeral.within? 64 s with
  | some i => some (.const (Int64.ofInt i))
  | none => if s.isEmpty then none else some (.var s)

def parse? (s : String) : Option BlockWeight := do
  let (place, weight) ← splitFirst? '=' s.toList
  let (function, block) ← splitLast? ':' place
  let value ← value? (String.ofList weight)
  let block ← Numeral.below? UInt32.size (String.ofList block)
  return ⟨String.ofList function, block, value⟩

def parse (s : String) : Outcome BlockWeight := .ofOption (.invalidWeight s) (parse? s)

end BlockWeight

end FlowProfile
