import FlowProfile.Comm.Site
import FlowProfile.Graph.Edit
import FlowProfile.Instrument.Edges
import FlowProfile.Notice

/-!
Trapping calls. What is inserted stands right at the call. Sites are treated from
the last to the first, so that the places of those before stay as they are.
-/

namespace FlowProfile

/-- The rank of a process that never learns it. No process has it. -/
def unknownRank : Int32 := -1

def CallSite.asksRank (c : CallSite) : Bool :=
  match c.callee with
  | .direct name => Comm.isRankQuery name
  | .indirect _ => false

/-- The first call that asks for the rank. -/
def Program.rankQuery? (p : Program) : Option CallSite := p.callSites.find? (·.asksRank)

/-- Copies the rank into a slot after the first call that asks for it. -/
def Program.trapRank (p : Program) (counters : String) : Outcome Program := do
  let declared ← p.declare ⟨counters, .i32, 1, unknownRank.toInt64⟩
  match p.rankQuery? with
  | some site =>
    match site.args[1]? with
    | some rank =>
      declared.update site.function fun f =>
        f.insertAfter site.block site.inst (.store counters 0 rank)
    | none => return declared
  | none => return declared

/-- Calls through a pointer before the rank query, and what keeps the rank unknown. -/
def Program.rankNotices (p : Program) : List Notice :=
  let name (site : CallSite) : String := (p.functions[site.function]?.map (·.name)).getD ""
  let unresolved := (p.callSites.takeWhile (!·.asksRank)).filterMap fun site =>
    match site.callee with
    | .direct _ => none
    | .indirect _ => some (Notice.unresolvedCallee site.inst site.block (name site))
  match p.rankQuery? with
  | some site =>
    if site.args.length ≤ 1 then unresolved ++ [.rankWithoutArgument site.block (name site)]
    else unresolved
  | none => unresolved ++ [.noRankQuery]

/-- Counts the calls of a site, and its bytes in the next slot. -/
def Program.trapPayload (counters : String) (p : Program) (trap : Comm.PayloadSite × Nat) :
    Outcome Program := do
  let (site, index) := trap
  let slot ← narrow (2 * index) .notAWord
  p.update site.function fun f =>
    f.insertAfter site.block site.inst (.accumulate counters slot site.count site.datatype)

def Program.trapComm (p : Program) (counters : String) : Outcome Program := do
  let sites := p.payloadSites
  let len ← narrow (2 * sites.length) .notAWord
  let p ← p.declare ⟨counters, .u64, len, 0⟩
  sites.zipIdx.reverse.foldlM (Program.trapPayload counters) p

/-- Puts a call between a timer's start and its stop. -/
def Program.trapTimed (counters : String) (p : Program) (trap : Comm.Site × Nat) :
    Outcome Program := do
  let (site, index) := trap
  let slot ← narrow index .notAWord
  p.update site.function fun f => do
    (← f.insertAfter site.block site.inst (.timerStop counters slot)).insertAt
      site.block site.inst .timerStart

def Program.trapTime (p : Program) (counters : String) : Outcome Program := do
  let sites := p.timedSites
  let len ← narrow sites.length .notAWord
  let p ← p.declare ⟨counters, .f64, len, 0⟩
  sites.zipIdx.reverse.foldlM (Program.trapTimed counters) p

end FlowProfile
