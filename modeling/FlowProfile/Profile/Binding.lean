import FlowProfile.Comm.Site
import FlowProfile.Profile.Basic

/-!
A profile bound to its program: every counter at the edge, the block or the call
that it counts. Counters are found by their place in program order.
-/

namespace FlowProfile

attribute [local instance] natZero

/-- The counters of one function. -/
structure FunctionCounts where
  entries : Option UInt64
  /-- For each block the counts of its edges, if edges were counted. -/
  edges : List (List UInt64)
  blocks : List UInt64
deriving DecidableEq, Repr

inductive TrapFormat where
  | full
  | legacy
deriving DecidableEq, Repr

def TrapFormat.name : TrapFormat → String
  | full => "full"
  | legacy => "legacy"

/-- A call whose payload was counted. -/
structure TrappedCall where
  index : Nat
  site : Comm.Site
  format : TrapFormat
  calls : UInt64
  bytes : UInt64
deriving DecidableEq, Repr

/-- A call whose time was measured. -/
structure TimedCall where
  site : Comm.Site
  seconds : Binary64
deriving DecidableEq, Repr

structure Binding where
  program : Program
  profile : Profile
  functions : List FunctionCounts
  hasBlockCounts : Bool
  /-- For each function the weights of its blocks. -/
  weights : Option (List (List Binary64))
  trapped : List TrappedCall
  timed : List TimedCall
deriving DecidableEq, Repr

/-- Cuts a list into pieces of the given lengths. -/
def cut {α : Type} : List Nat → List α → List (List α)
  | [], _ => []
  | n :: ns, xs => xs.take n :: cut ns (xs.drop n)

/-! ### Edges and blocks -/

namespace Function

def edgeCounts (f : Function) : List Nat := f.blocks.map (·.terminator.successors.length)

/-- The executions of a block are the counts of the edges into it, and for the entry also the
calls of the function. -/
def executions (f : Function) (entries : UInt64) (counts : List UInt64) (b : BlockId) : UInt64 :=
  let edges := (f.blocks.flatMap (·.terminator.successors)).zip counts
  let into := (edges.filter fun edge => edge.1 == b).map fun edge => edge.2.toNat
  Count.saturate ((if b = 0 then entries.toNat else 0) + into.sum)

/-- Does every edge end at a block? -/
def edgesInRange (f : Function) : Bool :=
  f.blocks.all fun block => block.terminator.successors.all (· < f.blocks.length)

/-- The counters of a function, given the counts of its entry and of its edges. -/
def ofEdgeCounts (f : Function) : List UInt64 → FunctionCounts
  | [] => ⟨none, f.blocks.map fun _ => [], f.blocks.map fun _ => 0⟩
  | entries :: counts =>
    ⟨some entries, cut f.edgeCounts counts,
      (List.range f.blocks.length).map (f.executions entries counts)⟩

/-- The counters of a function, given the counts of its blocks. -/
def ofBlockCounts (f : Function) (counts : List UInt64) : FunctionCounts :=
  ⟨counts.head?, f.blocks.map fun _ => [], counts⟩

end Function

/-- The edge counters of a function. A declaration has none. -/
def Function.slots (f : Function) : Nat := if f.isDeclaration then 0 else f.edgeSlots

namespace Profile

def bindEdges (p : Program) (counts : List UInt64) : Outcome (List FunctionCounts) := do
  Outcome.require (counts.length = p.edgeSlots) (.edgesMismatch counts.length p.edgeSlots)
  if p.functions.all Function.edgesInRange then
    return p.functions.zipWith Function.ofEdgeCounts (cut (p.functions.map Function.slots) counts)
  else .fault .outOfRange

def bindBlocks (p : Program) (counts : List UInt64) : Outcome (List FunctionCounts) := do
  let blocks := p.functions.map (·.blocks.length)
  Outcome.require (counts.length = blocks.sum) (.blocksMismatch counts.length blocks.sum)
  return p.functions.zipWith Function.ofBlockCounts (cut blocks counts)

def bindWeights (p : Program) (weights : List Binary64) : Outcome (List (List Binary64)) := do
  let blocks := p.functions.map (·.blocks.length)
  Outcome.require (weights.length = blocks.sum) (.weightsMismatch weights.length blocks.sum)
  return cut blocks weights

/-- Edge counters come before block counters. Without either every count is zero. -/
def bindCounts (p : Program) (profile : Profile) : Outcome (List FunctionCounts) :=
  match profile.edgeCounts, profile.blockCounts with
  | some counts, _ => bindEdges p counts
  | none, some counts => bindBlocks p counts
  | none, none => .ok (p.functions.map (Function.ofEdgeCounts · []))

/-! ### Calls -/

/-- The executions of a block, zero where there is none. -/
def executionsIn (functions : List FunctionCounts) (function : Nat) (block : BlockId) : UInt64 :=
  ((functions[function]?).bind (·.blocks[block]?)).getD 0

/-- Full counters come before legacy ones, which take the calls from the enclosing block. -/
def bindPayloads (p : Program) (profile : Profile) (functions : List FunctionCounts) :
    Outcome (List TrappedCall) :=
  let sites := p.payloadSites
  match profile.comm, profile.legacyComm with
  | some counters, _ => do
    Outcome.require (counters.length = sites.length) (.commMismatch counters.length sites.length)
    return (sites.zip counters).zipIdx.map fun ((site, c), index) =>
      ⟨index, site.toSite, .full, c.calls, c.bytes⟩
  | none, some bytes => do
    Outcome.require (bytes.length = sites.length) (.legacyCommMismatch bytes.length sites.length)
    return (sites.zip bytes).zipIdx.map fun ((site, bytes), index) =>
      ⟨index, site.toSite, .legacy, executionsIn functions site.function site.block, bytes⟩
  | none, none => .ok []

def bindTimes (p : Program) (profile : Profile) : Outcome (List TimedCall) :=
  let sites := p.timedSites
  match profile.commSeconds with
  | some seconds => do
    Outcome.require (seconds.length = sites.length) (.timesMismatch seconds.length sites.length)
    return (sites.zip seconds).map fun (site, seconds) => ⟨site, seconds⟩
  | none => .ok []

/-- Fails if some counters do not fit the program. -/
def bind (profile : Profile) (p : Program) : Outcome Binding := do
  let functions ← bindCounts p profile
  let weights ← match profile.blockWeights with
    | some weights => (bindWeights p weights).map some
    | none => .ok none
  let trapped ← bindPayloads p profile functions
  let timed ← bindTimes p profile
  return {
    program := p
    profile := profile
    functions := functions
    hasBlockCounts := profile.edgeCounts.isSome || profile.blockCounts.isSome
    weights := weights
    trapped := trapped
    timed := timed }

/-- What binding reports once it comes to the calls. -/
def bindNotices (profile : Profile) (p : Program) : List Notice :=
  let counts := bindCounts p profile
  let weights := profile.blockWeights.map (bindWeights p)
  if counts.toOption.isSome ∧ weights.all (·.toOption.isSome) ∧ profile.comm.isSome ∧
      profile.legacyComm.isSome then [.bothCommRecords]
  else []

end Profile

/-! ### Queries -/

namespace Binding

variable (b : Binding)

/-- The executions of a block, zero where there is none. -/
def executionCount (function : Nat) (block : BlockId) : UInt64 :=
  Profile.executionsIn b.functions function block

def functionCount (function : Nat) : Option UInt64 := (b.functions[function]?).bind (·.entries)

def edgeCount (function : Nat) (block : BlockId) (succ : Nat) : Option UInt64 :=
  ((b.functions[function]?).bind (·.edges[block]?)).bind (·[succ]?)

def blockWeight (function : Nat) (block : BlockId) : Option Binary64 :=
  (b.weights.bind (·[function]?)).bind (·[block]?)

/-- The executions of the block around a call, or the call's own count without any for blocks. -/
def blockFrequency (call : TrappedCall) : UInt64 :=
  if b.hasBlockCounts then b.executionCount call.site.function call.site.block else call.calls

def trappedIn (format : TrapFormat) : List TrappedCall := b.trapped.filter (·.format == format)

/-- The counts of all blocks as a record. -/
def blockRecord : Outcome Record :=
  if b.hasBlockCounts then .ok (.blocks (b.functions.flatMap (·.blocks)))
  else .fail .noBlockCounts

end Binding

end FlowProfile
