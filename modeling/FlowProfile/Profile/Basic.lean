import FlowProfile.Exec.Counters
import FlowProfile.Instrument.Traps
import FlowProfile.Record.Codec

/-!
Profiles: the counters of one or more executions, kind by kind. Counters of one kind
are added slot by slot, and have to be equally many.
-/

namespace FlowProfile

structure Profile where
  executions : List (List String)
  edgeCounts : Option (List UInt64)
  blockCounts : Option (List UInt64)
  comm : Option (List CommCounter)
  legacyComm : Option (List UInt64)
  commSeconds : Option (List Binary64)
  blockWeights : Option (List Binary64)
  /-- In rising order, without the unknown rank. -/
  ranks : List Int32
  unknownRank : Bool
deriving DecidableEq, Repr

/-- Inserts into a rising list what it does not have. -/
def insertRank (rank : Int32) : List Int32 → List Int32
  | [] => [rank]
  | r :: rs =>
    if rank < r then rank :: r :: rs
    else if rank = r then r :: rs
    else r :: insertRank rank rs

theorem mem_insertRank {rank other : Int32} {rs : List Int32} :
    other ∈ insertRank rank rs ↔ other = rank ∨ other ∈ rs := by
  fun_induction insertRank rank rs <;> grind

def CommCounter.add (a b : CommCounter) : CommCounter :=
  ⟨Count.saturatingAdd a.calls b.calls, Count.saturatingAdd a.bytes b.bytes⟩

/-- Adds counters slot by slot. Those of a first profile are taken as they are. -/
def addSlots {α : Type} (add : α → α → α) (mismatch : Nat → Nat → Cause) :
    Option (List α) → List α → Outcome (List α)
  | none, counts => .ok counts
  | some existing, counts =>
    if existing.length = counts.length then .ok (existing.zipWith add counts)
    else .fail (mismatch existing.length counts.length)

namespace Profile

def empty : Profile := ⟨[], none, none, none, none, none, none, [], false⟩

def addExecution (p : Profile) (args : List String) : Profile :=
  { p with executions := p.executions ++ [args] }

def addEdges (p : Profile) (counts : List UInt64) : Outcome Profile := do
  let sum ← addSlots Count.saturatingAdd (.incompatible "edge") p.edgeCounts counts
  return { p with edgeCounts := some sum }

def addBlocks (p : Profile) (counts : List UInt64) : Outcome Profile := do
  let sum ← addSlots Count.saturatingAdd (.incompatible "block") p.blockCounts counts
  return { p with blockCounts := some sum }

def addComm (p : Profile) (counters : List CommCounter) : Outcome Profile := do
  let sum ← addSlots CommCounter.add .incompatibleComm p.comm counters
  return { p with comm := some sum }

def addLegacyComm (p : Profile) (bytes : List UInt64) : Outcome Profile := do
  let sum ← addSlots Count.saturatingAdd (.incompatible "communication") p.legacyComm bytes
  return { p with legacyComm := some sum }

def addSeconds (p : Profile) (seconds : List Binary64) : Outcome Profile := do
  let sum ← addSlots (· + ·) (.incompatible "timing") p.commSeconds seconds
  return { p with commSeconds := some sum }

def addWeights (p : Profile) (weights : List Binary64) : Outcome Profile := do
  let sum ← addSlots (· + ·) (.incompatible "block weight") p.blockWeights weights
  return { p with blockWeights := some sum }

def addRank (p : Profile) (rank : Int32) : Profile :=
  if rank = FlowProfile.unknownRank then { p with unknownRank := true }
  else { p with ranks := insertRank rank p.ranks }

def addRanks (p : Profile) (ranks : List Int32) : Profile := ranks.foldl addRank p

def addRecord (p : Profile) : Record → Outcome Profile
  | .arguments args => .ok (p.addExecution args)
  | .blocks counts => p.addBlocks counts
  | .edges counts ranks => (p.addEdges counts).map (·.addRanks ranks)
  | .ranks ranks => .ok (p.addRanks ranks)
  | .legacyComm bytes => p.addLegacyComm bytes
  | .comm counters => p.addComm counters
  | .time seconds ranks => (p.addSeconds seconds).map (·.addRanks ranks)
  | .weightedBlocks weights => p.addWeights weights

def ofRecords (records : List Record) : Outcome Profile := records.foldlM addRecord empty

def ofBytes (bytes : Bytes) : Outcome Profile := do ofRecords (← decodeRecords bytes)

/-- Adds a kind of counters if the other profile has it. -/
def absorb {α : Type} (add : Profile → α → Outcome Profile) (counts : Option α) (p : Profile) :
    Outcome Profile :=
  match counts with
  | some counts => add p counts
  | none => .ok p

/-- All executions of both profiles. -/
def merge (p other : Profile) : Outcome Profile := do
  let p := { p with executions := p.executions ++ other.executions }
  let p ← absorb addEdges other.edgeCounts p
  let p ← absorb addBlocks other.blockCounts p
  let p ← absorb addLegacyComm other.legacyComm p
  let p ← absorb addSeconds other.commSeconds p
  let p ← absorb addWeights other.blockWeights p
  let p ← absorb addComm other.comm p
  return { p with
    ranks := other.ranks.foldl (fun ranks rank => insertRank rank ranks) p.ranks
    unknownRank := p.unknownRank || other.unknownRank }

/-- Merges another profile into one that is kept. It is replaced once all counters fit. -/
def mergeInto (other : Profile) : EStateM Failure Profile Unit := do
  match (← get).merge other with
  | .ok merged => set merged
  | .error failure => throw failure

/-! ### Comparison -/

/-- Do all numbers agree, as many as there are? -/
def agree : Option (List Binary64) → Option (List Binary64) → Bool
  | none, none => true
  | some xs, some ys => xs.length == ys.length && (xs.zip ys).all fun (x, y) => x.agrees y
  | _, _ => false

/-- Profiles are comparable if they have equally many executions. -/
def comparable (p q : Profile) : Bool := p.executions.length == q.executions.length

/-- The kinds of counters that differ, or the numbers of executions if these do. -/
def differences (p q : Profile) : List Notice :=
  if p.comparable q then
    let field (name : String) (same : Bool) := if same then [] else [Notice.countersDiffer name]
    field "edge_counts" (p.edgeCounts == q.edgeCounts) ++
      field "block_counts" (p.blockCounts == q.blockCounts) ++
      field "comm" (p.comm == q.comm) ++
      field "legacy_comm" (p.legacyComm == q.legacyComm) ++
      field "comm_seconds" (agree p.commSeconds q.commSeconds) ++
      field "block_weights" (agree p.blockWeights q.blockWeights) ++
      field "ranks" (p.ranks == q.ranks)
  else [.executionsDiffer p.executions.length q.executions.length]

end Profile

end FlowProfile
