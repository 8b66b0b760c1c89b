import FlowProfile.Decimal.Layout
import FlowProfile.Json.Basic

/-! Writing JSON text, on one line or with an item a line, two spaces in for each level. -/

namespace FlowProfile.Json

def hexDigit (n : Nat) : Char := (Nat.toDigits 16 n).headD '0'

/-- What has no short escape and is no control character stands for itself. -/
def escape (c : Char) : List Char :=
  match c with
  | '"' => ['\\', '"']
  | '\\' => ['\\', '\\']
  | '\x08' => ['\\', 'b']
  | '\x0c' => ['\\', 'f']
  | '\n' => ['\\', 'n']
  | '\r' => ['\\', 'r']
  | '\t' => ['\\', 't']
  | c =>
    if c.toNat < 0x20 then ['\\', 'u', '0', '0', hexDigit (c.toNat / 16), hexDigit (c.toNat % 16)]
    else [c]

/-- A literal without a text keeps half of a pair. -/
def literalText : Literal → List Char
  | some s => '"' :: (s.toList.flatMap escape ++ ['"'])
  | none => "\"\\ud800\"".toList

def numberText : Number → List Char
  | .integer i =>
    if i < 0 then '-' :: Nat.toDigits 10 i.natAbs else Nat.toDigits 10 i.natAbs
  | .decimal d => Decimal.document.text d

/-- The number as a document holds it, null if it is infinite or no number. -/
def ofBinary64 (x : Binary64) : Json :=
  if x.isFinite then .number (.decimal (Decimal.shortest Decimal.document.tie x)) else .null

def leafText : Json → List Char
  | .null => "null".toList
  | .bool true => "true".toList
  | .bool false => "false".toList
  | .number n => numberText n
  | .string s => literalText s
  | .array _ => "[]".toList
  | .object _ => "{}".toList

/-! ### One line -/

mutual

def compactChars : Json → List Char
  | .array items => '[' :: (compactItems items ++ [']'])
  | .object members => '{' :: (compactMembers members ++ ['}'])
  | leaf => leafText leaf

def compactItems : List Json → List Char
  | [] => []
  | [v] => compactChars v
  | v :: rest => compactChars v ++ ',' :: compactItems rest

def compactMembers : List (Literal × Json) → List Char
  | [] => []
  | [(name, v)] => literalText name ++ ':' :: compactChars v
  | (name, v) :: rest => literalText name ++ ':' :: (compactChars v ++ ',' :: compactMembers rest)

end

def compact (j : Json) : String := String.ofList (compactChars j)

/-! ### Many lines -/

def newline (level : Nat) : List Char := '\n' :: List.replicate (2 * level) ' '

mutual

def prettyChars (level : Nat) : Json → List Char
  | .array (v :: items) =>
    '[' :: (newline (level + 1) ++
      (prettyItems (level + 1) (v :: items) ++ (newline level ++ [']'])))
  | .object (m :: members) =>
    '{' :: (newline (level + 1) ++
      (prettyMembers (level + 1) (m :: members) ++ (newline level ++ ['}'])))
  | leaf => leafText leaf

def prettyItems (level : Nat) : List Json → List Char
  | [] => []
  | [v] => prettyChars level v
  | v :: rest => prettyChars level v ++ ',' :: (newline level ++ prettyItems level rest)

def prettyMembers (level : Nat) : List (Literal × Json) → List Char
  | [] => []
  | [(name, v)] => literalText name ++ ':' :: ' ' :: prettyChars level v
  | (name, v) :: rest =>
    literalText name ++ ':' :: ' ' ::
      (prettyChars level v ++ ',' :: (newline level ++ prettyMembers level rest))

end

def pretty (j : Json) : String := String.ofList (prettyChars 0 j)

end FlowProfile.Json
