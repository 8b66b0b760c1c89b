import FlowProfile.Failure
import FlowProfile.Graph.Edge

/-!
Small changes of a graph. Blocks and counter arrays are only ever added at the
end, so that the numbers of all others stay. A change at a place that is not
there is a fault.
-/

namespace FlowProfile

namespace Function

def block (f : Function) (b : BlockId) : Outcome Block := .get f.blocks b

/-- Changes one block. -/
def modifyBlock (f : Function) (b : BlockId) (change : Block → Block) : Function :=
  { f with blocks := f.blocks.modify b change }

/-- The block on a split edge. -/
def crossing (source target : Block) (dest : BlockId) : Block :=
  ⟨s!"{source.name}.{target.name}_crit_edge", [], .br dest⟩

/-- Puts a block of its own onto an edge. -/
def split (f : Function) (b : BlockId) (succ : Nat) (crossing : Block) : Function :=
  { f with
    blocks := f.blocks.modify b (fun block =>
      { block with terminator := block.terminator.redirect succ f.blocks.length }) ++ [crossing] }

/-- Splits an edge if it is critical, and tells the new block. -/
def splitCritical (f : Function) (b : BlockId) (succ : Nat) :
    Outcome (Function × Option BlockId) := do
  let source ← f.block b
  if f.isCritical b succ then
    match source.terminator.successors[succ]? with
    | some dest =>
      let target ← f.block dest
      return (f.split b succ (crossing source target dest), some f.blocks.length)
    | none => return (f, none)
  else return (f, none)

def redirect (f : Function) (b : BlockId) (succ : Nat) (dest : BlockId) : Outcome Function := do
  let block ← f.block b
  if succ < block.terminator.successors.length then
    return f.modifyBlock b fun block =>
      { block with terminator := block.terminator.redirect succ dest }
  else .fault .outOfRange

/-- Inserts an instruction before the one at `index`. -/
def insertAt (f : Function) (b : BlockId) (index : Nat) (inst : Inst) : Outcome Function := do
  let block ← f.block b
  if index ≤ block.insts.length then
    return f.modifyBlock b fun block => { block with insts := block.insts.insertIdx index inst }
  else .fault .outOfRange

def insertAtStart (f : Function) (b : BlockId) (inst : Inst) : Outcome Function :=
  f.insertAt b 0 inst

/-- Inserts an instruction right before the terminator. -/
def insertAtEnd (f : Function) (b : BlockId) (inst : Inst) : Outcome Function := do
  let block ← f.block b
  f.insertAt b block.insts.length inst

def insertAfter (f : Function) (b : BlockId) (index : Nat) (inst : Inst) : Outcome Function :=
  f.insertAt b (index + 1) inst

end Function

namespace Program

def function (p : Program) (i : Nat) : Outcome Function := .get p.functions i

/-- Changes one function. -/
def update (p : Program) (i : Nat) (change : Function → Outcome Function) : Outcome Program := do
  let f ← change (← p.function i)
  return { p with functions := p.functions.set i f }

def declare (p : Program) (g : Global) : Outcome Program :=
  match p.global? g.name with
  | some _ => .fail (.counterExists g.name)
  | none => .ok { p with globals := p.globals ++ [g] }

end Program

end FlowProfile
