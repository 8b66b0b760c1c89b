import FlowProfile.Command.Options
import FlowProfile.Decimal.Literal
import FlowProfile.Instrument.Basic
import FlowProfile.Price.Source
import FlowProfile.Text.Numeral

/-! The commands, and how their arguments are read. -/

namespace FlowProfile

inductive Command where
  | instrument (settings : Instrumenter) (output module : String)
  | run (rank size : Int32) (callSeconds : Binary64) (output : Option String) (module : String)
      (args : List String)
  | show (profiles : List String)
  | timing (kinds : List Price.Kind) (sources : List String) (ignore : Option String)
      (verbose : Bool) (module : String) (profiles : List String)
  | convert (output module : String) (profiles : List String)
  | compare (left right : String)
  | comm (module : String) (profiles : List String)
deriving Repr

namespace Command

/-- A path has at least one character. -/
def path? (s : String) : Option String := if s.isEmpty then none else some s

/-- A value that may be left out. -/
def optional? {α : Type} (read : String → Option α) : Option String → Option (Option α)
  | none => some none
  | some s => (read s).map some

def orDefault? {α : Type} (read : String → Option α) (default : α) (s : Option String) : Option α :=
  (optional? read s).map (·.getD default)

/-- One path or more. -/
def paths? (args : List String) : Option (List String) :=
  if args.isEmpty then none else args.mapM path?

def int32? (s : String) : Option Int32 := (Numeral.within? 32 s).map Int32.ofInt

def strategyFlag : Flag := ⟨"strategy", some 's', true, true⟩
def entryFlag : Flag := ⟨"entry", none, true, false⟩
def weightFlag : Flag := ⟨"weight", none, true, true⟩
def outputFlag : Flag := ⟨"output", some 'o', true, false⟩
def rankFlag : Flag := ⟨"rank", none, true, false⟩
def sizeFlag : Flag := ⟨"size", none, true, false⟩
def callSecondsFlag : Flag := ⟨"call-seconds", none, true, false⟩
def sourceFlag : Flag := ⟨"source", some 's', true, true⟩
def sourceFileFlag : Flag := ⟨"source-file", some 'f', true, true⟩
def ignoreFlag : Flag := ⟨"ignore", none, true, false⟩
def verboseFlag : Flag := ⟨"verbose", some 'v', false, false⟩
def moduleFlag : Flag := ⟨"module", some 'm', true, false⟩

def instrument? (args : List String) : Option Command := do
  let p ← parseArgs? [strategyFlag, entryFlag, weightFlag, outputFlag] args
  let lists := (p.values "strategy").flatMap commaSeparated
  let strategies ← lists.mapM fun s => (Strategy.parse s).toOption
  let weights ← (p.values "weight").mapM BlockWeight.parse?
  let output ← orDefault? path? "instrumented.json" (p.value? "output")
  let settings : Instrumenter :=
    ⟨if p.has "strategy" then strategies else Instrumenter.default.strategies,
      (p.value? "entry").getD Instrumenter.default.entry, weights⟩
  match p.rest with
  | [path] => return .instrument settings output (← path? path)
  | _ => none

/-- A microsecond. -/
def defaultCallSeconds : Binary64 := Decimal.toBinary64 ⟨false, 1, -6⟩

def run? (args : List String) : Option Command := do
  let p ← parseArgs? [rankFlag, sizeFlag, callSecondsFlag, outputFlag] args
  let rank ← orDefault? int32? 0 (p.value? "rank")
  let size ← orDefault? int32? 1 (p.value? "size")
  let seconds ← orDefault? Decimal.typed? defaultCallSeconds (p.value? "call-seconds")
  let output ← optional? path? (p.value? "output")
  match p.rest with
  | path :: args => return .run rank size seconds output (← path? path) args
  | [] => none

def show? (args : List String) : Option Command := do
  let p ← parseArgs? [] args
  return .show (← paths? p.rest)

def timing? (args : List String) : Option Command := do
  let p ← parseArgs? [sourceFlag, sourceFileFlag, ignoreFlag, verboseFlag, moduleFlag] args
  let lists := (p.values "source").flatMap commaSeparated
  let kinds ← lists.mapM fun s => (Price.Kind.parse s).toOption
  let files ← (p.values "source-file").mapM path?
  let ignore ← optional? path? (p.value? "ignore")
  let module ← path? (← p.value? "module")
  return .timing kinds files ignore (p.has "verbose") module (← paths? p.rest)

def convert? (args : List String) : Option Command := do
  let p ← parseArgs? [outputFlag, moduleFlag] args
  let output ← orDefault? path? "commprof.blocks.out" (p.value? "output")
  let module ← path? (← p.value? "module")
  return .convert output module (← paths? p.rest)

def compare? (args : List String) : Option Command := do
  let p ← parseArgs? [] args
  match p.rest with
  | [left, right] => return .compare (← path? left) (← path? right)
  | _ => none

def comm? (args : List String) : Option Command := do
  let p ← parseArgs? [moduleFlag] args
  let module ← path? (← p.value? "module")
  return .comm module (← paths? p.rest)

/-- The name of the command comes first. -/
def parse? : List String → Option Command
  | "instrument" :: args => instrument? args
  | "run" :: args => run? args
  | "show" :: args => show? args
  | "timing" :: args => timing? args
  | "convert" :: args => convert? args
  | "compare" :: args => compare? args
  | "comm" :: args => comm? args
  | _ => none

end Command

end FlowProfile
