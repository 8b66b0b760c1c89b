import FlowProfile.Comm.Operation
import FlowProfile.Table

/-! Two models of what communication costs: one in closed form, and one fitted to measurements. -/

namespace FlowProfile.Price

/-- The binary logarithm of the number of processes, of which there is one at least. -/
def logProcesses (processes : Nat) : Binary64 :=
  (Binary64.ofUInt64 (max processes 1).toUInt64).log2

/-- Transfers take a latency in nanoseconds, and a nanosecond for each `bandwidth` bytes. -/
structure LatencyModel where
  latencyNs : Binary64
  bandwidth : Binary64
  processes : Nat
deriving DecidableEq, Repr

namespace LatencyModel

def default : LatencyModel := ⟨1000, 1, 1⟩

/-- The nanoseconds of calls that move so many bytes in all. A category without a price is free. -/
def estimate (m : LatencyModel) (category : Comm.Category) (frequency bytes : UInt64) : Binary64 :=
  let starts := .ofUInt64 frequency * m.latencyNs
  let bytes := Binary64.ofUInt64 bytes
  match category with
  | .pointToPoint => starts + bytes / m.bandwidth
  | .reduce | .allReduce =>
    starts + category.reduceConstant * bytes * logProcesses m.processes / m.bandwidth
  | .collective => 2 * .ofUInt64 m.processes.toUInt64 * (starts + bytes / m.bandwidth)
  | .wait | .setup => .zero

end LatencyModel

/-- Seconds for each call, for each byte, and for each call and doubling of the processes. -/
structure Coefficients where
  intercept : Binary64
  perByte : Binary64
  perLogProcess : Binary64
deriving DecidableEq, Repr

/-- Coefficients by the stem of an operation. -/
abbrev FittedModel := Table Coefficients

/-- The nanoseconds of calls that move so many bytes in all. An unknown operation is free. -/
def FittedModel.estimate (m : FittedModel) (stem : String) (calls bytes : UInt64)
    (processes : Nat) : Binary64 :=
  match m.get? stem with
  | none => .zero
  | some c =>
    let calls := Binary64.ofUInt64 calls
    (calls * c.intercept + c.perByte * .ofUInt64 bytes +
      calls * c.perLogProcess * logProcesses processes) * 1000000000

end FlowProfile.Price
