import FlowProfile.Exec.Counters
import FlowProfile.Exec.Host
import FlowProfile.Graph.Edit
import FlowProfile.Graph.Validate
import FlowProfile.Record.Basic
import FlowProfile.Comm.Operation

/-!
Running a program one counted step at a time. A step is an instruction or a
terminator. Suspended calls are a stack of frames, so that every run is a chain of
configurations.
-/

namespace FlowProfile

/-- What a process holds besides the place where it is. -/
structure Machine (σ : Type) where
  vars : Variables
  counters : Counters
  /-- The registrations in their order. -/
  handlers : List (Strategy × List String)
  timer : Option Binary64
  host : σ

def Machine.initial {σ : Type} (p : Program) (host : σ) : Machine σ :=
  ⟨.empty, .initial p, [], none, host⟩

/-- A place in a function: a block, and the instructions of it that are left. -/
structure Frame where
  function : Nat
  block : BlockId
  rest : List Inst
deriving DecidableEq, Repr

/-- The start of a block. -/
def Program.frameAt (p : Program) (function : Nat) (b : BlockId) : Outcome Frame := do
  let block ← (← p.function function).block b
  return ⟨function, b, block.insts⟩

def Frame.context (p : Program) (f : Frame) : Context :=
  .inBlock (((p.block? f.function f.block).map (·.name)).getD "")
    (((p.functions[f.function]?).map (·.name)).getD "")

/-- A place, and the suspended calls around it, the innermost first. -/
structure Config (σ : Type) where
  machine : Machine σ
  frame : Frame
  callers : List Frame

/-- The same failure seen from outside the suspended calls. -/
def Failure.outside (p : Program) (callers : List Frame) (failure : Failure) : Failure :=
  callers.foldl (fun failure frame => failure.within (frame.context p)) failure

def maxDepth : Nat := 1000

/-! ### Instructions -/

/-- What an instruction does: it goes on, or it enters a function, or it fails. -/
inductive Effect (σ : Type) where
  | proceed (m : Machine σ)
  | enter (function : Nat) (m : Machine σ)
  | fail (m : Machine σ) (failure : Failure)

/-- Goes on with what a result gives, or fails on the machine as it was. -/
@[inline] def Effect.of {σ α : Type} (m : Machine σ) (result : Outcome α) (next : α → Effect σ) :
    Effect σ :=
  match result with
  | .ok a => next a
  | .error failure => .fail m failure

/-- The result of a computation, none for an opcode whose result is not kept. -/
def compute (vars : Variables) (opcode : String) (operands : List Operand) :
    Outcome (Option Int64) :=
  let arg (i : Nat) : Outcome Int64 :=
    match operands[i]? with
    | some operand => vars.get operand
    | none => .fail (.missingOperand opcode i)
  let binary (f : Int64 → Int64 → Int64) : Outcome (Option Int64) := do
    return some (f (← arg 0) (← arg 1))
  let test (f : Int64 → Int64 → Bool) := binary fun a b => if f a b then 1 else 0
  match opcode with
  | "mov" => do return some (← arg 0)
  | "add" => binary (· + ·)
  | "sub" => binary (· - ·)
  | "mul" => binary (· * ·)
  | "lt" => test fun a b => a < b
  | "le" => test fun a b => a ≤ b
  | "eq" => test fun a b => a = b
  | "ne" => test fun a b => a ≠ b
  | _ => .ok none

/-- The name of the function that is called. -/
def Callee.resolve (p : Program) (vars : Variables) : Callee → Outcome String
  | .direct name => .ok name
  | .indirect target => do
    let index ← vars.get target
    match if 0 ≤ index then p.functions[index.toNatClampNeg]? else none with
    | some f => return f.name
    | none => .fail (.bogusFunction index)

/-- The counter arrays that a registration passes on. -/
def registered (callee : String) (args : List Operand) : Outcome (List String) :=
  args.mapM fun
    | .global name => .ok name
    | other => .fail (.notCounters callee other)

/-- The first function of that name, if it has a body. -/
def Program.definition? (p : Program) (name : String) : Option Nat :=
  (p.functionIndex? name).filter fun i => (p.functions[i]?).any (!·.isDeclaration)

namespace Machine

variable {σ : Type} (p : Program) (host : Host σ) (depth : Nat) (m : Machine σ)

/-- A registration comes first, then a function of the program, and then the host. -/
def call (callee : Callee) (args : List Operand) : Effect σ :=
  .of m (callee.resolve p m.vars) fun name =>
    match Strategy.ofEntryPoint? name with
    | some strategy =>
      .of m (registered name args) fun globals =>
        .proceed { m with handlers := m.handlers ++ [(strategy, globals)] }
    | none =>
      match p.definition? name with
      | some function =>
        if depth + 1 < maxDepth then .enter function m
        else .fail m (.error [] (.callDepth maxDepth))
      | none =>
        match host.call m.host name args m.vars with
        | (state, .ok vars) => .proceed { m with host := state, vars := vars }
        | (state, .error failure) => .fail { m with host := state } failure

def increment (counters : String) (slot : Nat) : Effect σ :=
  .of m (m.counters.u64Slot counters slot) fun n =>
    .of m (Count.add n 1) fun n =>
      .proceed { m with counters := m.counters.setU64 counters slot n }

def store (counters : String) (slot : Nat) (value : Operand) : Effect σ :=
  .of m (m.vars.get value) fun value =>
    .of m (m.counters.i32Slot counters slot) fun _ =>
      .proceed { m with counters := m.counters.setI32 counters slot value.toInt32 }

/-- The bytes of a payload. A negative element count stands for none. -/
def payloadBytes (count datatype : Int64) : UInt64 :=
  Count.saturatingMul (if 0 ≤ count then count.toUInt64 else 0) (Comm.datatypeSize datatype)

def accumulate (counters : String) (slot : Nat) (count datatype : Operand) : Effect σ :=
  .of m (m.vars.get count) fun count =>
    .of m (m.vars.get datatype) fun datatype =>
      .of m (m.counters.u64Slot counters slot) fun calls =>
        .of m (Count.add calls 1) fun calls =>
          let m := { m with counters := m.counters.setU64 counters slot calls }
          .of m (m.counters.u64Slot counters (slot + 1)) fun bytes =>
            let bytes := Count.saturatingAdd bytes (payloadBytes count datatype)
            .proceed { m with counters := m.counters.setU64 counters (slot + 1) bytes }

def addTo (counters : String) (slot : Nat) (x : Binary64) : Effect σ :=
  .of m (m.counters.f64Slot counters slot) fun sum =>
    .proceed { m with counters := m.counters.setF64 counters slot (sum + x) }

def startTimer : Effect σ :=
  let (state, time) := host.now m.host
  .proceed { m with host := state, timer := some time }

/-- A stopped timer has to be started again. -/
def stopTimer (counters : String) (slot : Nat) : Effect σ :=
  match m.timer with
  | none => .fail m (.error [] .timerNotStarted)
  | some start =>
    let (state, time) := host.now m.host
    { m with host := state, timer := none }.addTo counters slot (time - start)

def execute : Inst → Effect σ
  | .op _ none _ => .proceed m
  | .op opcode (some dest) operands =>
    .of m (compute m.vars opcode operands) fun
      | some value => .proceed { m with vars := m.vars.write dest value }
      | none => .proceed m
  | .call callee args => m.call p host depth callee args
  | .increment counters slot => m.increment counters slot
  | .store counters slot value => m.store counters slot value
  | .accumulate counters slot count datatype => m.accumulate counters slot count datatype
  | .addWeight counters slot value =>
    .of m (m.vars.get value) fun value => m.addTo counters slot (.ofInt64 value)
  | .timerStart => m.startTimer host
  | .timerStop counters slot => m.stopTimer host counters slot

end Machine

/-! ### Steps -/

inductive Step (σ : Type) where
  | running (c : Config σ)
  | finished (m : Machine σ)
  | failed (m : Machine σ) (failure : Failure)

/-- The place among the successors by which control leaves, none for a return. -/
def Terminator.exit (function : String) (vars : Variables) : Terminator → Outcome (Option Nat)
  | .br _ => .ok (some 0)
  | .condBr cond _ _ => do
    return some (if (← vars.get cond) ≠ 0 then 0 else 1)
  | .switch value _ cases => do
    let value ← vars.get value
    return some ((cases.findIdx? (·.1 == value)).elim 0 (· + 1))
  | .ret => .ok none
  | .unreachable => .fail (.unreachableCode function)

/-- A block that control comes to, and the edge it takes to it, none for a call. -/
structure Visit where
  function : Nat
  block : BlockId
  edge : Option (BlockId × Nat)
deriving DecidableEq, Repr

/-- The block that comes after one that has ended, none for a return. -/
def Program.follow (p : Program) (function : Nat) (b : BlockId) (vars : Variables) :
    Outcome (Option Visit) := do
  let f ← p.function function
  let block ← f.block b
  match ← block.terminator.exit f.name vars with
  | none => return none
  | some succ =>
    let dest ← .get block.terminator.successors succ
    return some ⟨function, dest, some (b, succ)⟩

namespace Config

variable {σ : Type} (p : Program) (host : Host σ)

/-- Leaves the block of the frame. -/
def leave (c : Config σ) : Step σ :=
  match p.follow c.frame.function c.frame.block c.machine.vars with
  | .error failure => .failed c.machine (failure.outside p c.callers)
  | .ok (some visit) =>
    match p.frameAt visit.function visit.block with
    | .ok frame => .running { c with frame := frame }
    | .error failure => .failed c.machine (failure.outside p c.callers)
  | .ok none =>
    match c.callers with
    | [] => .finished c.machine
    | frame :: callers => .running ⟨c.machine, frame, callers⟩

/-- A failing instruction adds the context of its own block to those of its callers. -/
def step (c : Config σ) : Step σ :=
  match c with
  | ⟨m, ⟨function, block, []⟩, callers⟩ => leave p ⟨m, ⟨function, block, []⟩, callers⟩
  | ⟨m, ⟨function, block, inst :: rest⟩, callers⟩ =>
    match m.execute p host callers.length inst with
    | .proceed m => .running ⟨m, ⟨function, block, rest⟩, callers⟩
    | .enter callee m =>
      match p.frameAt callee 0 with
      | .ok frame => .running ⟨m, frame, ⟨function, block, rest⟩ :: callers⟩
      | .error failure => .failed m (failure.outside p (⟨function, block, rest⟩ :: callers))
    | .fail m failure => .failed m (failure.outside p (⟨function, block, rest⟩ :: callers))

/-- Runs for at most so many steps. `limit` is the number that a failure tells. -/
def run (limit : Nat) : (steps : Nat) → Config σ → Machine σ × Outcome Unit
  | 0, c => (c.machine, .error (.outside p c.callers (.error [] (.stepLimit limit))))
  | steps + 1, c =>
    match c.step p host with
    | .running c => run limit steps c
    | .finished m => (m, .ok ())
    | .failed m failure => (m, .error failure)

end Config

/-! ### Runs -/

/-- The words and the ranks in the arrays of a registration. -/
def Counters.words (cs : Counters) (entryPoint : String) :
    List String → Outcome (List UInt64 × List Int32)
  | [] => .ok ([], [])
  | name :: names =>
    match cs.get? name with
    | none => .fail (.unknownCounters entryPoint name)
    | some array => do
      let (words, ranks) ← cs.words entryPoint names
      match array with
      | .u64 slots => return (slots.toList ++ words, ranks)
      | .f64 slots => return (slots.toList.map Binary64.bits ++ words, ranks)
      | .i32 slots => return (words, slots.toList ++ ranks)

def Counters.record (cs : Counters) (handler : Strategy × List String) : Outcome Record := do
  let (words, ranks) ← cs.words handler.1.entryPoint handler.2
  return handler.1.record words ranks

/-- The records that the handlers write, after one of the arguments. -/
def Machine.records {σ : Type} (m : Machine σ) (args : List String) : Outcome (List Record) :=
  if m.handlers.isEmpty then .ok []
  else do return .arguments args :: (← m.handlers.mapM m.counters.record)

/-- The first configuration of `main`, for a valid program. -/
def Program.start {σ : Type} (p : Program) (state : σ) : Outcome (Config σ) := do
  p.validate
  let main ← .ofOption .noMain (p.functionIndex? "main")
  match p.frameAt main 0 with
  | .ok frame => return ⟨.initial p state, frame, []⟩
  | .error _ => .fail (.noBody "main")

/-- Runs `main` of a valid program, and tells the machine at the end and what it wrote. -/
def Program.run {σ : Type} (p : Program) (host : Host σ) (state : σ) (limit : Nat)
    (args : List String) : Machine σ × Outcome (List Record) :=
  match p.start state with
  | .error failure => (.initial p state, .error failure)
  | .ok c =>
    match c.run p host limit limit with
    | (m, .ok ()) => (m, m.records args)
    | (m, .error failure) => (m, .error failure)

end FlowProfile
