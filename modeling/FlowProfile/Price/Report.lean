import FlowProfile.Decimal.Layout
import FlowProfile.Exec.Counters

/-! What pricing a profile comes to: totals, and the shares of opcodes, functions and calls. -/

namespace FlowProfile.Price

/-- How often an opcode ran, and its time. -/
structure OpcodeShare where
  count : UInt64
  ns : Binary64
deriving DecidableEq, Repr

structure CallShare where
  index : Nat
  function : String
  block : BlockId
  callee : String
  frequency : UInt64
  estimateNs : Binary64
deriving DecidableEq, Repr

structure Breakdown where
  /-- In the order of the names. -/
  opcodes : List (String × OpcodeShare)
  functions : List (String × Binary64)
  calls : List CallShare
deriving DecidableEq, Repr

def Breakdown.empty : Breakdown := ⟨[], [], []⟩

/-- Changes the entry of a name, or makes one, and keeps the order of the names. -/
def revise {α : Type} (name : String) (change : Option α → Outcome α) :
    List (String × α) → Outcome (List (String × α))
  | [] => do return [(name, ← change none)]
  | (n, a) :: rest =>
    if name < n then do return (name, ← change none) :: (n, a) :: rest
    else if n = name then do return (n, ← change (some a)) :: rest
    else do return (n, a) :: (← revise name change rest)

structure Report where
  blockNs : Binary64
  mpiNs : Binary64
  callNs : Binary64
  instructions : UInt64
  mpiCalls : UInt64
  commAmount : UInt64
  realMpiSeconds : Binary64
  realWaitSeconds : Binary64
  fittingNs : Binary64
  breakdown : Option Breakdown
deriving DecidableEq, Repr

namespace Report

def empty (verbose : Bool) : Report :=
  ⟨0, 0, 0, 0, 0, 0, 0, 0, 0, if verbose then some .empty else none⟩

def totalNs (r : Report) : Binary64 := r.blockNs + r.mpiNs + r.callNs

def line (s : String) : String := s ++ "\n"

def opcodeLine (entry : String × OpcodeShare) : String :=
  line s!"  {entry.1}\t{entry.2.count}\t{Decimal.reported entry.2.ns} ns"

def functionLine (entry : String × Binary64) : String :=
  line s!"  {Decimal.reported entry.2}\t{entry.1}"

def callLine (c : CallShare) : String :=
  line (s!"  {c.index}\t{c.callee}\tBB:{c.frequency}\tT:{Decimal.reported c.estimateNs}\t" ++
    s!"{c.function}:{c.block}")

/-- A title and lines under it, or nothing if there are none. -/
def sectionText {α : Type} (title : String) (text : α → String) (entries : List α) : String :=
  if entries.isEmpty then "" else "\n" ++ line title ++ String.join (entries.map text)

def breakdownText (b : Breakdown) : String :=
  sectionText "Instructions:" opcodeLine b.opcodes ++
    sectionText "Functions:" functionLine b.functions ++
    sectionText "Communication calls:" callLine b.calls

def text (r : Report) : String :=
  line s!"Block Timing: {Decimal.reported r.blockNs} ns" ++
  line s!"MPI Timing: {Decimal.reported r.mpiNs} ns" ++
  line s!"Call Timing: {Decimal.reported r.callNs} ns" ++
  line s!"Timing: {Decimal.reported r.totalNs} ns" ++
  line s!"Inst Num: {r.instructions}" ++
  line s!"Mpi Num: {r.mpiCalls}" ++
  line s!"Comm Amount: {r.commAmount}" ++
  line s!"Real MPI Timing: {Decimal.reported (r.realMpiSeconds * 1000000000)} ns" ++
  line s!"Real MPI Wait Timing: {Decimal.reported (r.realWaitSeconds * 1000000000)} ns" ++
  line s!"MPI Fitting Timing: {Decimal.reported r.fittingNs} ns" ++
  (r.breakdown.map breakdownText).getD ""

end Report

end FlowProfile.Price
