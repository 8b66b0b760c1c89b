import FlowProfile.Text.Quoted

/-!
Programs as control-flow graphs: functions of blocks, blocks of instructions and
one terminator, and the counter arrays that instrumentation declares.
-/

namespace FlowProfile

/-- The place of a block in its function. Block 0 is the entry. -/
abbrev BlockId := Nat

/-- Sums of slots start here, whatever else is imported. -/
abbrev natZero : Zero Nat := ⟨0⟩

inductive Operand where
  | const (value : Int64)
  | var (name : String)
  | global (name : String)
deriving DecidableEq, Repr

/-- An operand as a message shows it. -/
def Operand.quoted : Operand → String
  | .const value => s!"Const({value})"
  | .var name => "Var(" ++ Text.quote name ++ ")"
  | .global name => "Global(" ++ Text.quote name ++ ")"

inductive Callee where
  | direct (name : String)
  | indirect (target : Operand)
deriving DecidableEq, Repr

inductive Inst where
  /-- A computation of the program, named by its opcode. -/
  | op (opcode : String) (dest : Option String) (operands : List Operand)
  | call (callee : Callee) (args : List Operand)
  /-- Adds one to a slot. -/
  | increment (counters : String) (slot : Nat)
  /-- Copies a value into a slot. -/
  | store (counters : String) (slot : Nat) (value : Operand)
  /-- Adds one to a slot, and the bytes of a payload to the next. -/
  | accumulate (counters : String) (slot : Nat) (count datatype : Operand)
  /-- Adds a value to a slot of numbers. -/
  | addWeight (counters : String) (slot : Nat) (value : Operand)
  | timerStart
  /-- Adds the time since the timer started to a slot. -/
  | timerStop (counters : String) (slot : Nat)
deriving DecidableEq, Repr

inductive Terminator where
  | br (target : BlockId)
  | condBr (cond : Operand) (thenBlock elseBlock : BlockId)
  | switch (value : Operand) (default : BlockId) (cases : List (Int64 × BlockId))
  | ret
  | unreachable
deriving DecidableEq, Repr

structure Block where
  name : String
  insts : List Inst
  terminator : Terminator
deriving DecidableEq, Repr

/-- A function without blocks is a declaration. -/
structure Function where
  name : String
  blocks : List Block
deriving DecidableEq, Repr

inductive CounterType where
  | u64
  | i32
  | f64
deriving DecidableEq, Repr

/-- A counter array whose slots all begin with `init`. -/
structure Global where
  name : String
  type : CounterType
  len : Nat
  init : Int64
deriving DecidableEq, Repr

structure Program where
  functions : List Function
  globals : List Global
deriving DecidableEq, Repr

/-! ### Opcodes -/

def instrumentationOpcode : String := "instrumentation"

def Inst.opcode : Inst → String
  | .op opcode _ _ => opcode
  | .call _ _ => "call"
  | _ => instrumentationOpcode

def Inst.isInstrumentation (i : Inst) : Bool := i.opcode == instrumentationOpcode

/-- The function that a direct call names. -/
def Inst.callee? : Inst → Option String
  | .call (.direct name) _ => some name
  | _ => none

def Terminator.opcode : Terminator → String
  | .br _ | .condBr _ _ _ => "br"
  | .switch _ _ _ => "switch"
  | .ret => "ret"
  | .unreachable => "unreachable"

/-- The opcodes that one run of the block executes for the program itself. -/
def Block.opcodes (b : Block) : List String :=
  ((b.insts.filter (!·.isInstrumentation)).map Inst.opcode) ++ [b.terminator.opcode]

/-! ### Look-up -/

def Function.isDeclaration (f : Function) : Bool := f.blocks.isEmpty

/-- The first function of that name. -/
def Program.function? (p : Program) (name : String) : Option Function :=
  p.functions.find? (·.name == name)

def Program.functionIndex? (p : Program) (name : String) : Option Nat :=
  p.functions.findIdx? (·.name == name)

/-- A block by its function and its place in it. -/
def Program.block? (p : Program) (function : Nat) (b : BlockId) : Option Block :=
  (p.functions[function]?).bind (·.blocks[b]?)

def Program.global? (p : Program) (name : String) : Option Global :=
  p.globals.find? (·.name == name)

/-- The functions with a body, each with its place among all functions. -/
def Program.definedFunctions (p : Program) : List (Function × Nat) :=
  p.functions.zipIdx.filter (!·.1.isDeclaration)

end FlowProfile
