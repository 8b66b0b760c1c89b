import FlowProfile.Notice
import FlowProfile.Price.Report
import FlowProfile.Price.Source
import FlowProfile.Profile.Binding

/-!
Pricing a bound profile. Each kind of source writes fields of the report that are its
own, so one kind never changes what another comes to.
-/

namespace FlowProfile.Price

structure Analyzer where
  sources : List Source
  /-- Functions that are left out of everything. -/
  ignore : List String
  verbose : Bool
deriving DecidableEq, Repr

namespace Analyzer

variable (a : Analyzer) (b : Binding)

/-- The blocks of a function with their executions. -/
structure CountedFunction where
  name : String
  blocks : List (Block × UInt64)
deriving DecidableEq, Repr

/-- The functions with a body that are not ignored, in order. -/
def counted : List CountedFunction :=
  (b.program.definedFunctions.filter fun (f, _) => f.name ∉ a.ignore).map fun (f, i) =>
    ⟨f.name, f.blocks.zipIdx.map fun (block, id) => (block, b.executionCount i id)⟩

def isIgnored (site : Comm.Site) : Bool :=
  (b.program.functions[site.function]?).any fun f => f.name ∈ a.ignore

/-- The name of the function around a site. -/
def functionName (site : Comm.Site) : String :=
  ((b.program.functions[site.function]?).map (·.name)).getD ""

/-! ### Computation -/

def functionNs (costs : InstructionCosts) (f : CountedFunction) : Binary64 :=
  f.blocks.foldl (fun ns (block, n) => ns + .ofUInt64 n * costs.blockCost block) 0

/-- Adds the instructions of a block that ran so often. -/
def addInstructions (total : UInt64) (entry : Block × UInt64) : Outcome UInt64 := do
  Count.add total (← Count.mul entry.2 entry.1.opcodes.length.toUInt64)

/-- Adds runs of an opcode to its share. -/
def addOpcode (costs : InstructionCosts) (n : UInt64) (shares : List (String × OpcodeShare))
    (opcode : String) : Outcome (List (String × OpcodeShare)) :=
  revise opcode (fun share => do
    let share := share.getD ⟨0, 0⟩
    return ⟨← Count.add share.count n, share.ns + .ofUInt64 n * costs.cost opcode⟩) shares

def addOpcodes (costs : InstructionCosts) (shares : List (String × OpcodeShare))
    (entry : Block × UInt64) : Outcome (List (String × OpcodeShare)) :=
  entry.1.opcodes.foldlM (addOpcode costs entry.2) shares

def priceBlocks (costs : InstructionCosts) (r : Report) : Outcome Report := do
  let functions := a.counted b
  let blocks := functions.flatMap (·.blocks)
  let instructions ← blocks.foldlM addInstructions r.instructions
  let times := functions.map fun f => (f.name, functionNs costs f)
  let breakdown ← r.breakdown.mapM fun d => do
    return { d with
      opcodes := ← blocks.foldlM (addOpcodes costs) d.opcodes
      functions := d.functions ++ times }
  return { r with
    instructions := instructions
    blockNs := times.foldl (fun ns time => ns + time.2) r.blockNs
    breakdown := breakdown }

/-! ### Communication -/

/-- Queries of the environment count as no communication. -/
def isMeasured (call : TimedCall) : Bool :=
  !a.isIgnored b call.site && call.site.op.stem ∉ ["init", "comm_rank", "comm_size"]

def priceCalls (costs : CommCosts) (r : Report) : Outcome Report := do
  let measured := b.timed.filter (a.isMeasured b)
  let waits := measured.filter (·.site.op.category == .wait)
  let calls := b.trapped.filter fun call => !a.isIgnored b call.site
  let estimate (call : TrappedCall) : Binary64 :=
    costs.model.estimate call.site.op.category (b.blockFrequency call) call.bytes
  let fitted (call : TrappedCall) : Binary64 :=
    costs.fitted.estimate call.site.op.stem call.calls call.bytes costs.model.processes
  let mpiCalls ← calls.foldlM (fun n call => Count.add n (b.blockFrequency call)) r.mpiCalls
  let shares := calls.map fun call => CallShare.mk call.index (functionName b call.site)
    call.site.block call.site.callee (b.blockFrequency call) (estimate call)
  return { r with
    realMpiSeconds := measured.foldl (fun s call => s + call.seconds) r.realMpiSeconds
    realWaitSeconds := waits.foldl (fun s call => s + call.seconds) r.realWaitSeconds
    mpiNs := calls.foldl (fun ns call => ns + estimate call) r.mpiNs
    fittingNs := calls.foldl (fun ns call => ns + fitted call) r.fittingNs
    mpiCalls := mpiCalls
    commAmount := calls.foldl (fun n call => Count.saturatingAdd n call.bytes) r.commAmount
    breakdown := r.breakdown.map fun d => { d with calls := d.calls ++ shares } }

/-! ### Library calls -/

/-- The direct calls in one block. -/
def libraryNs (costs : LibraryCosts) (entry : Block × UInt64) : Binary64 :=
  .sum ((entry.1.insts.filterMap Inst.callee?).map (costs.cost · entry.2))

def priceLibrary (costs : LibraryCosts) (r : Report) : Report :=
  let blocks := (a.counted b).flatMap (·.blocks)
  { r with callNs := blocks.foldl (fun ns entry => ns + libraryNs costs entry) r.callNs }

/-! ### All sources -/

def price (r : Report) : Source → Outcome Report
  | .block costs => a.priceBlocks b costs r
  | .mpi costs => a.priceCalls b costs r
  | .libcall costs => .ok (a.priceLibrary b costs r)

/-- The first source of each kind that was not seen before. -/
def firsts (seen : List Kind) : List Source → List Source
  | [] => []
  | s :: rest => if s.kind ∈ seen then firsts seen rest else s :: firsts (s.kind :: seen) rest

/-- The kinds of all other sources. -/
def extras (seen : List Kind) : List Source → List Kind
  | [] => []
  | s :: rest => if s.kind ∈ seen then s.kind :: extras seen rest else extras (s.kind :: seen) rest

/-- A sum of counters that does not fit is a fault. -/
def run : Outcome Report := (firsts [] a.sources).foldlM (a.price b) (.empty a.verbose)

def notices : List Notice := (extras [] a.sources).map fun kind => .extraSource kind.name

end Analyzer

end FlowProfile.Price
