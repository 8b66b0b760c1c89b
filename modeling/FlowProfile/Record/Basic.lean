import FlowProfile.Binary64
import FlowProfile.Instrument.Strategy

/-! Records: the counters that one process leaves at its end. -/

namespace FlowProfile

structure CommCounter where
  calls : UInt64
  bytes : UInt64
deriving DecidableEq, Repr

inductive Record where
  /-- The command line. It begins the records of a process. -/
  | arguments (args : List String)
  | blocks (counts : List UInt64)
  | edges (counts : List UInt64) (ranks : List Int32)
  | ranks (ranks : List Int32)
  /-- The bytes alone of each site. -/
  | legacyComm (bytes : List UInt64)
  | comm (counters : List CommCounter)
  | time (seconds : List Binary64) (ranks : List Int32)
  | weightedBlocks (weights : List Binary64)
deriving DecidableEq, Repr

/-- Calls and bytes alternate. A last count of calls may lack its bytes. -/
def CommCounter.ofWords : List UInt64 → List CommCounter
  | [] => []
  | [calls] => [⟨calls, 0⟩]
  | calls :: bytes :: rest => ⟨calls, bytes⟩ :: ofWords rest

/-- The record of a strategy, from its words and its ranks. Seconds and weights are held as bits. -/
def Strategy.record (words : List UInt64) (ranks : List Int32) : Strategy → Record
  | edge | edgeRank => .edges words ranks
  | rank => .ranks ranks
  | comm => .comm (CommCounter.ofWords words)
  | time => .time (words.map Binary64.mk) ranks
  | weightedBlock => .weightedBlocks (words.map Binary64.mk)

end FlowProfile
