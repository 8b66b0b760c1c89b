import FlowProfile.Json.Decode
import FlowProfile.Json.Printer
import FlowProfile.Profile.Basic

/-! Profiles as documents. Counters that a profile lacks are null. -/

namespace FlowProfile

open Json

def CommCounter.toJson (c : CommCounter) : Json :=
  record [("calls", .nat c.calls.toNat), ("bytes", .nat c.bytes.toNat)]

def CommCounter.ofJson? (j : Json) : Option CommCounter := do
  match ← j.fields ["calls", "bytes"] with
  | [calls, bytes] => return ⟨← calls.required asUInt64, ← bytes.required asUInt64⟩
  | _ => none

namespace Profile

/-- A vector as an array, or null. -/
def vectorJson {α : Type} (element : α → Json) : Option (List α) → Json
  | some xs => .array (xs.map element)
  | none => .null

def countsJson : Option (List UInt64) → Json := vectorJson fun n => .nat n.toNat

def toJson (p : Profile) : Json := record
  [("executions", .array (p.executions.map fun args => .array (args.map .text))),
    ("edge_counts", countsJson p.edgeCounts),
    ("block_counts", countsJson p.blockCounts),
    ("comm", vectorJson CommCounter.toJson p.comm),
    ("legacy_comm", countsJson p.legacyComm),
    ("comm_seconds", vectorJson ofBinary64 p.commSeconds),
    ("block_weights", vectorJson ofBinary64 p.blockWeights),
    ("ranks", .array (p.ranks.map fun r => .int r.toInt)),
    ("unknown_rank", .bool p.unknownRank)]

def ofJson? (j : Json) : Option Profile := do
  match ← j.fields ["executions", "edge_counts", "block_counts", "comm", "legacy_comm",
      "comm_seconds", "block_weights", "ranks", "unknown_rank"] with
  | [executions, edges, blocks, comm, legacy, seconds, weights, ranks, unknown] =>
    return {
      executions := ← executions.required (asList (asList asText))
      edgeCounts := ← edges.nullable (asList asUInt64)
      blockCounts := ← blocks.nullable (asList asUInt64)
      comm := ← comm.nullable (asList CommCounter.ofJson?)
      legacyComm := ← legacy.nullable (asList asUInt64)
      commSeconds := ← seconds.nullable (asList asBinary64)
      blockWeights := ← weights.nullable (asList asBinary64)
      ranks := (← ranks.required (asList asInt32)).foldl (fun rs r => insertRank r rs) []
      unknownRank := ← unknown.required asBool }
  | _ => none

end Profile

end FlowProfile
