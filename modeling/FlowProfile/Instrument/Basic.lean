import FlowProfile.Graph.Validate
import FlowProfile.Instrument.Blocks
import FlowProfile.Instrument.Strategy
import FlowProfile.Instrument.Traps

/-!
Instrumenting a program. A strategy is a list of passes, each of which declares one
counter array, and a call at the start of the entry function that registers them.
-/

namespace FlowProfile

inductive Pass where
  | edges (counters : String)
  | rank (counters : String)
  | comm (counters : String)
  | time (counters : String)
  | weights (counters : String)
deriving DecidableEq, Repr

/-- The array that the pass declares. -/
def Pass.counters : Pass → String
  | edges counters | rank counters | comm counters | time counters | weights counters => counters

/-- A rank pass that cannot declare its array looks for no rank. -/
def Pass.notices (p : Program) : Pass → List Notice
  | .rank counters => if (p.global? counters).isSome then [] else p.rankNotices
  | _ => []

def Strategy.passes : Strategy → List Pass
  | edge => [.edges "__commprof_edge_counters"]
  | edgeRank => [.edges "__commprof_edge_rank_counters", .rank "__commprof_edge_rank_ranks"]
  | rank => [.rank "__commprof_rank"]
  | comm => [.comm "__commprof_comm_counters"]
  | time => [.time "__commprof_time_counters", .rank "__commprof_time_ranks"]
  | weightedBlock => [.weights "__commprof_block_weights"]

def Strategy.registration (s : Strategy) : Inst :=
  .call (.direct s.entryPoint) (s.passes.map fun pass => .global pass.counters)

structure Instrumenter where
  strategies : List Strategy
  entry : String
  weights : List BlockWeight
deriving DecidableEq, Repr

def Instrumenter.default : Instrumenter := ⟨[.edgeRank], "main", []⟩

/-- The number of blocks of each function. -/
def Program.blockCounts (p : Program) : List Nat := p.functions.map (·.blocks.length)

namespace Instrumenter

variable (ins : Instrumenter) (blocks : List Nat)

/-- Only the blocks that the functions had at first are counted and weighed. -/
def pass (p : Program) : Pass → Outcome Program
  | .edges counters => p.countEdges blocks counters
  | .rank counters => p.trapRank counters
  | .comm counters => p.trapComm counters
  | .time counters => p.trapTime counters
  | .weights counters => p.weighBlocks blocks ins.weights counters

/-- The passes of a strategy, and then its call at the start of function `main`. -/
def apply (main : Nat) (p : Program) (s : Strategy) : Outcome Program := do
  let p ← s.passes.foldlM (ins.pass blocks) p
  p.update main fun f => f.insertAtStart 0 s.registration

/-- The strategies for a valid program that has the entry function. -/
def applyAll (main : Nat) (p : Program) : Outcome Program :=
  ins.strategies.foldlM (ins.apply blocks main) p

/-- A program without the entry function stays as it is. -/
def instrument (p : Program) : Outcome Program := do
  p.validate
  match p.functionIndex? ins.entry with
  | none => return p
  | some main =>
    let f ← p.function main
    Outcome.require (¬f.isDeclaration) (.entryWithoutBody ins.entry)
    Outcome.require (¬(.edge ∈ ins.strategies ∧ .edgeRank ∈ ins.strategies)) .edgeStrategiesCombined
    ins.applyAll p.blockCounts main p

/-! ### Notices -/

/-- The notices of passes done one after another, up to the first that fails. -/
def passesNotices (p : Program) : List Pass → List Notice
  | [] => []
  | pass :: rest => pass.notices p ++
    match ins.pass blocks p pass with
    | .ok p => passesNotices p rest
    | .error _ => []

def strategiesNotices (main : Nat) (p : Program) : List Strategy → List Notice
  | [] => []
  | s :: rest => ins.passesNotices blocks p s.passes ++
    match ins.apply blocks main p s with
    | .ok p => strategiesNotices main p rest
    | .error _ => []

/-- What instrumenting the program reports. -/
def notices (p : Program) : List Notice :=
  if p.IsValid then
    match p.functionIndex? ins.entry with
    | none => [.noEntry ins.entry]
    | some main =>
      if (p.functions[main]?.all (·.isDeclaration)) ∨
          (.edge ∈ ins.strategies ∧ .edgeRank ∈ ins.strategies) then []
      else ins.strategiesNotices p.blockCounts main p ins.strategies
  else []

end Instrumenter

end FlowProfile
