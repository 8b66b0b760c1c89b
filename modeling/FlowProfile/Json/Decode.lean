import FlowProfile.Json.Basic
import FlowProfile.Table

/-!
Reading typed values out of a document. Each reader accepts the documents of one
type and gives nothing for any other.
-/

namespace FlowProfile.Json

variable {α β : Type}

def asText : Json → Option String
  | .string s => s
  | _ => none

def asBool : Json → Option Bool
  | .bool b => some b
  | _ => none

def asInt : Json → Option Int
  | .number (.integer i) => some i
  | _ => none

def asNatBelow (bound : Nat) (j : Json) : Option Nat :=
  j.asInt.bind fun i => if 0 ≤ i ∧ i < bound then some i.toNat else none

/-- A natural number of 32 bits. -/
def asWord : Json → Option Nat := asNatBelow UInt32.size

def asUInt64 (j : Json) : Option UInt64 := (j.asNatBelow UInt64.size).map Nat.toUInt64

def asInt64 (j : Json) : Option Int64 :=
  j.asInt.bind fun i =>
    if Int64.minValue.toInt ≤ i ∧ i ≤ Int64.maxValue.toInt then some (Int64.ofInt i) else none

def asInt32 (j : Json) : Option Int32 :=
  j.asInt.bind fun i =>
    if Int32.minValue.toInt ≤ i ∧ i ≤ Int32.maxValue.toInt then some (Int32.ofInt i) else none

def Number.toDecimal : Number → Decimal
  | .integer i => ⟨i < 0, i.natAbs, 0⟩
  | .decimal d => d

/-- A number that is too large is refused, and one that is too small is zero. -/
def Number.toBinary64? (n : Number) : Option Binary64 :=
  let x := n.toDecimal.toBinary64
  if x.isFinite then some x else none

def asBinary64 : Json → Option Binary64
  | .number n => n.toBinary64?
  | _ => none

def asList (item : Json → Option α) : Json → Option (List α)
  | .array items => items.mapM item
  | _ => none

def asPair (first : Json → Option α) (second : Json → Option β) : Json → Option (α × β)
  | .array [a, b] => do return (← first a, ← second b)
  | _ => none

def asNullable (value : Json → Option α) : Json → Option (Option α)
  | .null => some none
  | j => (value j).map some

/-- An object as a table. The last of several members with one name counts. -/
def asTable (value : Json → Option α) : Json → Option (Table α)
  | .object members =>
    (members.mapM fun (m : Literal × Json) => do return (← m.1, ← value m.2)).map Table.ofList
  | _ => none

/-! ### Records -/

/-- What a document says about one field of a record: an object may leave out its
name, and an array may end before its place. -/
inductive Field where
  | given (value : Json)
  | unnamed
  | beyond
deriving Repr

/-- The only member of that name. -/
def member (members : List (String × Json)) (name : String) : Option Field :=
  match members.filter (·.1 == name) with
  | [] => some .unnamed
  | [(_, v)] => some (.given v)
  | _ => none

def element (items : List Json) (place : Nat) : Field :=
  match items[place]? with
  | some v => .given v
  | none => .beyond

/-- The names of an object's members are text, whatever their values are. -/
def textMembers (members : List (Literal × Json)) : Option (List (String × Json)) :=
  members.mapM fun (m : Literal × Json) => m.1.map (·, m.2)

/-- The fields of a record, from an object, or from an array in the order of the names.
An object may have further members, an array no further elements. -/
def fields (names : List String) : Json → Option (List Field)
  | .object members => (textMembers members).bind fun ms => names.mapM (member ms)
  | .array items =>
    if items.length ≤ names.length then
      some ((List.range names.length).map (element items))
    else none
  | _ => none

def Field.required (value : Json → Option α) : Field → Option α
  | .given v => value v
  | _ => none

def Field.withDefault (default : α) (value : Json → Option α) : Field → Option α
  | .given v => value v
  | _ => some default

/-- A field that only an object may leave out. -/
def Field.nullable (value : Json → Option α) : Field → Option (Option α)
  | .given v => asNullable value v
  | .unnamed => some none
  | .beyond => none

/-! ### Alternatives -/

/-- The name of an alternative, and what it holds: a string, or an object with one member. -/
def alternative : Json → Option (String × Option Json)
  | .string s => s.map (·, none)
  | .object [(name, v)] => name.map (·, some v)
  | _ => none

/-- An alternative that holds nothing. -/
def isUnit : Option Json → Bool
  | none => true
  | some .null => true
  | some _ => false

end FlowProfile.Json
