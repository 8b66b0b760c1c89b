import FlowProfile.Failure
import FlowProfile.Json.Decode
import FlowProfile.Json.Reader
import FlowProfile.Price.Model

/-! Sources of prices, each configured by a document. -/

namespace FlowProfile.Price

inductive Kind where
  | block
  | mpi
  | libcall
deriving DecidableEq, Repr

namespace Kind

def name : Kind → String
  | block => "block"
  | mpi => "mpi"
  | libcall => "libcall"

def all : List Kind := [block, mpi, libcall]

def parse (s : String) : Outcome Kind := .ofOption (.unknownTimingKind s) (all.find? (·.name == s))

theorem parse_name (k : Kind) : parse k.name = .ok k := by cases k <;> rfl

end Kind

/-- The nanoseconds of an instruction, by opcode. -/
structure InstructionCosts where
  costs : Table Binary64
  default : Binary64
deriving DecidableEq, Repr

def InstructionCosts.cost (c : InstructionCosts) (opcode : String) : Binary64 :=
  (c.costs.get? opcode).getD c.default

/-- One run of a block. What instrumentation inserted is free. -/
def InstructionCosts.blockCost (c : InstructionCosts) (b : Block) : Binary64 :=
  .sum (b.opcodes.map c.cost)

structure CommCosts where
  model : LatencyModel
  fitted : FittedModel
deriving DecidableEq, Repr

/-- The nanoseconds of a call, by the name of the function. -/
structure LibraryCosts where
  costs : Table Binary64
deriving DecidableEq, Repr

/-- So many calls of one function. A function without a price is free. -/
def LibraryCosts.cost (c : LibraryCosts) (callee : String) (frequency : UInt64) : Binary64 :=
  (c.costs.get? callee).getD .zero * .ofUInt64 frequency

inductive Source where
  | block (costs : InstructionCosts)
  | mpi (costs : CommCosts)
  | libcall (costs : LibraryCosts)
deriving DecidableEq, Repr

def Source.kind : Source → Kind
  | block _ => .block
  | mpi _ => .mpi
  | libcall _ => .libcall

/-! ### Documents -/

open Json

def costTable? : Json → Option (Table Binary64) := asTable asBinary64

def InstructionCosts.ofJson? (j : Json) : Option InstructionCosts := do
  match ← j.fields ["instruction_costs", "default_cost"] with
  | [costs, default] =>
    return ⟨← costs.withDefault .empty costTable?, ← default.withDefault .zero asBinary64⟩
  | _ => none

def LibraryCosts.ofJson? (j : Json) : Option LibraryCosts := do
  match ← j.fields ["costs"] with
  | [costs] => return ⟨← costs.withDefault .empty costTable?⟩
  | _ => none

def Coefficients.ofJson? (j : Json) : Option Coefficients := do
  match ← j.fields ["intercept", "per_byte", "per_log_process"] with
  | [intercept, perByte, perLogProcess] =>
    return ⟨← intercept.withDefault .zero asBinary64, ← perByte.withDefault .zero asBinary64,
      ← perLogProcess.withDefault .zero asBinary64⟩
  | _ => none

def FittedModel.ofJson? : Json → Option FittedModel := asTable Coefficients.ofJson?

def LatencyModel.ofFields? : List Field → Option LatencyModel
  | [latencyNs, bandwidth, processes] => do
    return ⟨← latencyNs.required asBinary64, ← bandwidth.required asBinary64,
      ← processes.required asWord⟩
  | _ => none

def LatencyModel.fieldNames : List String := ["latency_ns", "bandwidth", "processes"]

def LatencyModel.ofJson? (j : Json) : Option LatencyModel :=
  (j.fields fieldNames).bind ofFields?

/-- Values that can be kept for later: all texts and numbers are proper, and arrays and
objects are nested less deeply than the given depth. -/
def isKeepable (depth : Nat) : Json → Bool
  | .number n => n.toBinary64?.isSome
  | .string s => s.isSome
  | .array items =>
    match depth with
    | 0 => false
    | depth + 1 => items.all (isKeepable depth)
  | .object members =>
    match depth with
    | 0 => false
    | depth + 1 => members.all fun m => m.1.isSome && isKeepable depth m.2
  | .null | .bool _ => true

/-- The depth that is left inside a document's outermost object. -/
def keptDepth : Nat := 126

/-- The model's own fields stand beside that of the fitted model, so an object is needed, and
its other members are kept until all are known. -/
def CommCosts.ofJson? : Json → Option CommCosts
  | .object members => do
    let members ← textMembers members
    if members.all fun m => m.1 == "fitting" || isKeepable keptDepth m.2 then
      let fitted ← (← member members "fitting").withDefault .empty FittedModel.ofJson?
      let model ← LatencyModel.ofFields? (← LatencyModel.fieldNames.mapM (member members))
      return ⟨model, fitted⟩
    else none
  | _ => none

def Source.ofJson? (j : Json) : Kind → Option Source
  | .block => (InstructionCosts.ofJson? j).map .block
  | .mpi => (CommCosts.ofJson? j).map .mpi
  | .libcall => (LibraryCosts.ofJson? j).map .libcall

def Source.parse (kind : Kind) (text : String) : Outcome Source :=
  .ofOption .badDocument ((Json.read text).bind (Source.ofJson? · kind))

end FlowProfile.Price
