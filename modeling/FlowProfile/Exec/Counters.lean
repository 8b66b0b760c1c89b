import FlowProfile.Binary64
import FlowProfile.Failure
import FlowProfile.Table

/-! The counter arrays of a process, by name. -/

namespace FlowProfile

inductive CounterArray where
  | u64 (slots : Array UInt64)
  | i32 (slots : Array Int32)
  | f64 (slots : Array Binary64)
deriving DecidableEq, Repr

/-- The array as it is before anything is counted. -/
def Global.initial (g : Global) : CounterArray :=
  match g.type with
  | .u64 => .u64 (Array.replicate g.len g.init.toUInt64)
  | .i32 => .i32 (Array.replicate g.len g.init.toInt32)
  | .f64 => .f64 (Array.replicate g.len (.ofInt64 g.init))

abbrev Counters := Table CounterArray

namespace Counters

/-- Of several arrays with one name the last counts. -/
def initial (p : Program) : Counters := .ofList (p.globals.map fun g => (g.name, g.initial))

def u64Slot (cs : Counters) (name : String) (slot : Nat) : Outcome UInt64 :=
  match cs.get? name with
  | some (.u64 slots) => .ofOption (.slotOutOfBounds slot name) slots[slot]?
  | _ => .fail (.noU64Counters name)

def i32Slot (cs : Counters) (name : String) (slot : Nat) : Outcome Int32 :=
  match cs.get? name with
  | some (.i32 slots) => .ofOption (.noI32Slot slot name) slots[slot]?
  | _ => .fail (.noI32Slot slot name)

def f64Slot (cs : Counters) (name : String) (slot : Nat) : Outcome Binary64 :=
  match cs.get? name with
  | some (.f64 slots) => .ofOption (.noF64Slot slot name) slots[slot]?
  | _ => .fail (.noF64Slot slot name)

def setU64 (cs : Counters) (name : String) (slot : Nat) (value : UInt64) : Counters :=
  cs.modify name fun
    | .u64 slots => .u64 (slots.setIfInBounds slot value)
    | other => other

def setI32 (cs : Counters) (name : String) (slot : Nat) (value : Int32) : Counters :=
  cs.modify name fun
    | .i32 slots => .i32 (slots.setIfInBounds slot value)
    | other => other

def setF64 (cs : Counters) (name : String) (slot : Nat) (value : Binary64) : Counters :=
  cs.modify name fun
    | .f64 slots => .f64 (slots.setIfInBounds slot value)
    | other => other

end Counters

/-- The greatest count. -/
def maxCount : UInt64 := 0xFFFFFFFFFFFFFFFF

namespace Count

/-- The count that is nearest to a number. -/
def saturate (n : Nat) : UInt64 := if n < UInt64.size then UInt64.ofNat n else maxCount

def saturatingAdd (a b : UInt64) : UInt64 := saturate (a.toNat + b.toNat)

def saturatingMul (a b : UInt64) : UInt64 := saturate (a.toNat * b.toNat)

/-- A sum that has to fit. -/
def add (a b : UInt64) : Outcome UInt64 :=
  if a.toNat + b.toNat < UInt64.size then .ok (a + b) else .fault .overflow

/-- A product that has to fit. -/
def mul (a b : UInt64) : Outcome UInt64 :=
  if a.toNat * b.toNat < UInt64.size then .ok (a * b) else .fault .overflow

end Count

end FlowProfile
