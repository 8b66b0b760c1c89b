import FlowProfile.Comm.Operation
import FlowProfile.Exec.Variables

/-!
What surrounds a program: the functions that it calls and does not define, and a
clock. A host answers from a state of its own.
-/

namespace FlowProfile

structure Host (σ : Type) where
  /-- The state after a call, and the variables unless the call failed. -/
  call : σ → (callee : String) → (args : List Operand) → Variables → σ × Outcome Variables
  /-- The time in seconds. -/
  now : σ → σ × Binary64

/-- One process as its message-passing library shows it. -/
structure MpiProcess where
  rank : Int32
  size : Int32
  clock : Binary64
  callSeconds : Binary64
deriving DecidableEq, Repr

namespace MpiProcess

def start (rank size : Int32) (callSeconds : Binary64) : MpiProcess :=
  ⟨rank, size, .zero, callSeconds⟩

/-- What a query writes through its second argument. -/
def answer? (p : MpiProcess) (op : Comm.Operation) : Option Int64 :=
  if op.stem = "comm_rank" then some p.rank.toInt64
  else if op.stem = "comm_size" then some p.size.toInt64
  else none

/-- A recognised call takes its time, and any other none. -/
def call (p : MpiProcess) (callee : String) (args : List Operand) (vars : Variables) :
    MpiProcess × Outcome Variables :=
  match Comm.Operation.lookup? callee with
  | none => (p, .ok vars)
  | some op =>
    ({ p with clock := p.clock + p.callSeconds },
      match p.answer? op with
      | none => .ok vars
      | some value =>
        match args[1]? with
        | some out => vars.set out value
        | none => .fail (.noOutputArgument callee))

def now (p : MpiProcess) : MpiProcess × Binary64 := (p, p.clock)

def host : Host MpiProcess := ⟨call, now⟩

end MpiProcess

/-- A call that reached the host, with its arguments as they were, none for a counter array. -/
structure HostCall where
  callee : String
  args : List (Option Int64)
deriving DecidableEq, Repr

def HostCall.of (callee : String) (args : List Operand) (vars : Variables) : HostCall :=
  ⟨callee, args.map fun a => (vars.get a).toOption⟩

/-- The same host, which also keeps the calls, the last one first. -/
def Host.recording {σ : Type} (h : Host σ) : Host (σ × List HostCall) where
  call := fun (s, calls) callee args vars =>
    let (s, result) := h.call s callee args vars
    ((s, .of callee args vars :: calls), result)
  now := fun (s, calls) =>
    let (s, time) := h.now s
    ((s, calls), time)

end FlowProfile
