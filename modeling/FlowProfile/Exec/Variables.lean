import FlowProfile.Failure
import FlowProfile.Table

/-! The variables of a process. One that was never set reads as zero. -/

namespace FlowProfile

structure Variables where
  values : Table Int64
deriving DecidableEq, Repr

namespace Variables

def empty : Variables := ⟨.empty⟩

def read (vars : Variables) (name : String) : Int64 := (vars.values.get? name).getD 0

def write (vars : Variables) (name : String) (value : Int64) : Variables :=
  ⟨vars.values.set name value⟩

/-- The value of an operand. A counter array has none. -/
def get (vars : Variables) : Operand → Outcome Int64
  | .const value => .ok value
  | .var name => .ok (vars.read name)
  | .global name => .fail (.loadFromCounters name)

/-- Sets a variable. Nothing else can be written through. -/
def set (vars : Variables) (operand : Operand) (value : Int64) : Outcome Variables :=
  match operand with
  | .var name => .ok (vars.write name value)
  | other => .fail (.storeThrough other)

@[simp] theorem read_empty (name : String) : empty.read name = 0 := rfl

theorem read_write (vars : Variables) (name other : String) (value : Int64) :
    (vars.write name value).read other = if name = other then value else vars.read other := by
  by_cases h : name = other <;> simp [read, write, Table.get?_set, h]

end Variables

end FlowProfile
