import FlowProfile.Failure

/-! What a program can be instrumented for. -/

namespace FlowProfile

inductive Strategy where
  /-- Counts every edge. -/
  | edge
  /-- Counts every edge, and keeps the rank of the process. -/
  | edgeRank
  /-- Keeps the rank alone. -/
  | rank
  /-- Counts the calls and bytes of each site that moves data. -/
  | comm
  /-- Measures each communication call, and keeps the rank. -/
  | time
  /-- Adds up a weight for each block. -/
  | weightedBlock
deriving DecidableEq, Repr

namespace Strategy

def all : List Strategy := [edge, edgeRank, rank, comm, time, weightedBlock]

def name : Strategy → String
  | edge => "edge"
  | edgeRank => "edge-rank"
  | rank => "rank"
  | comm => "comm"
  | time => "time"
  | weightedBlock => "weighted-block"

/-- The function that an instrumented program calls to register its counters. -/
def entryPoint : Strategy → String
  | edge => "commprof_start_edge_profiling"
  | edgeRank => "commprof_start_edge_rank_profiling"
  | rank => "commprof_start_rank_profiling"
  | comm => "commprof_start_comm_profiling"
  | time => "commprof_start_time_profiling"
  | weightedBlock => "commprof_start_weighted_block_profiling"

def ofEntryPoint? (callee : String) : Option Strategy := all.find? (·.entryPoint == callee)

def parse (s : String) : Outcome Strategy :=
  .ofOption (.unknownStrategy s) (all.find? (·.name == s))

theorem ofEntryPoint?_entryPoint (s : Strategy) : ofEntryPoint? s.entryPoint = some s := by
  cases s <;> decide

theorem parse_name (s : Strategy) : parse s.name = .ok s := by
  cases s <;> rfl

end Strategy

end FlowProfile
