import FlowProfile.Decimal.Basic

/-!
Documents in JSON, as their text gives them: members keep their order and may
repeat, and a number keeps its sign and all its digits.
-/

namespace FlowProfile

namespace Json

/-- An integer literal, or one with a fraction or an exponent. Minus zero is no integer. -/
inductive Number where
  | integer (value : Int)
  | decimal (value : Decimal)
deriving DecidableEq, Repr

/-- What a string literal denotes: no text if one of its escapes is half of a pair, or if its
bytes are none. -/
abbrev Literal := Option String

end Json

inductive Json where
  | null
  | bool (value : Bool)
  | number (value : Json.Number)
  | string (value : Json.Literal)
  | array (items : List Json)
  | object (members : List (Json.Literal × Json))
deriving Repr

namespace Json

instance : Inhabited Json := ⟨.null⟩

def text (s : String) : Json := .string (some s)

def int (i : Int) : Json := .number (.integer i)

def nat (n : Nat) : Json := int n

/-- An object whose members have names that are text. -/
def record (members : List (String × Json)) : Json :=
  .object (members.map fun (name, value) => (some name, value))

/-- An object with one member. -/
def tagged (name : String) (value : Json) : Json := record [(name, value)]

end Json

end FlowProfile
