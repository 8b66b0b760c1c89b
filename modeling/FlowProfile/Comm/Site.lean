import FlowProfile.Comm.Operation
import FlowProfile.Graph.Basic

/-!
Call sites, numbered in program order: by function, by block, by instruction.
Instrumentation and the reader of a profile use the same lists, so that the
counters of a site are found at its number.
-/

namespace FlowProfile

/-- A call and where it stands. -/
structure CallSite where
  function : Nat
  block : BlockId
  inst : Nat
  callee : Callee
  args : List Operand
deriving DecidableEq, Repr

def Inst.siteAt? (function : Nat) (block : BlockId) : Inst × Nat → Option CallSite
  | (.call callee args, inst) => some ⟨function, block, inst, callee, args⟩
  | _ => none

def Block.callSites (b : Block) (function : Nat) (block : BlockId) : List CallSite :=
  b.insts.zipIdx.filterMap (Inst.siteAt? function block)

def Function.callSites (f : Function) (function : Nat) : List CallSite :=
  f.blocks.zipIdx.flatMap fun (b, block) => b.callSites function block

/-- Every call of the program. -/
def Program.callSites (p : Program) : List CallSite :=
  p.functions.zipIdx.flatMap fun (f, function) => f.callSites function

namespace Comm

/-- A direct call of a recognised operation. -/
structure Site where
  function : Nat
  block : BlockId
  inst : Nat
  callee : String
  op : Operation
deriving DecidableEq, Repr

def Site.ofCall? (c : CallSite) : Option Site :=
  match c.callee with
  | .direct name => (Operation.lookup? name).map (⟨c.function, c.block, c.inst, name, ·⟩)
  | .indirect _ => none

/-- A site whose payload is followed, with the operands that give its size. -/
structure PayloadSite extends Site where
  count : Operand
  datatype : Operand
deriving DecidableEq, Repr

def PayloadSite.ofCall? (c : CallSite) : Option PayloadSite := do
  let site ← Site.ofCall? c
  let (count, datatype) ← site.op.payload
  if site.op.movesData then
    return { site with count := ← c.args[count]?, datatype := ← c.args[datatype]? }
  else none

end Comm

/-- The sites whose bytes are counted. -/
def Program.payloadSites (p : Program) : List Comm.PayloadSite :=
  p.callSites.filterMap Comm.PayloadSite.ofCall?

/-- The sites whose time is measured. -/
def Program.timedSites (p : Program) : List Comm.Site :=
  p.callSites.filterMap Comm.Site.ofCall?

end FlowProfile
