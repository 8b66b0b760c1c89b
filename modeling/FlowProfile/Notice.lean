/-! What is reported beside a result: warnings, and one error that is no failure. -/

namespace FlowProfile

inductive Notice where
  | noEntry (name : String)
  | unresolvedCallee (inst block : Nat) (function : String)
  | rankWithoutArgument (block : Nat) (function : String)
  | noRankQuery
  | bothCommRecords
  | countersDiffer (field : String)
  | executionsDiffer (left right : Nat)
  | extraSource (kind : String)
deriving DecidableEq, Repr

def Notice.level : Notice → String
  | .executionsDiffer _ _ => "error"
  | _ => "warn"

def Notice.message : Notice → String
  | .noEntry name => s!"cannot insert profiling into a module with no `{name}` function"
  | .unresolvedCallee inst block function =>
    s!"unresolved callee at call {inst} of block {block} in `{function}`"
  | .rankWithoutArgument block function =>
    s!"rank query in block {block} of `{function}` has no rank argument; rank will be unknown"
  | .noRankQuery => "no rank query found; rank will be recorded as unknown"
  | .bothCommRecords =>
    "profile has both full and legacy communication records; using the full records"
  | .countersDiffer field => s!"{field} differ"
  | .executionsDiffer left right => s!"number of executions differ: {left} versus {right}"
  | .extraSource kind => s!"ignoring extra {kind} timing source"

end FlowProfile
