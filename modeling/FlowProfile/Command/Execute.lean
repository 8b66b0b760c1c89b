import FlowProfile.Collector
import FlowProfile.Command.Basic
import FlowProfile.Exec.Machine
import FlowProfile.Files
import FlowProfile.Json.Printer
import FlowProfile.Profile.Json

/-! What the commands do: each reads files, writes at most one, and prints a text. -/

namespace FlowProfile.Command

/-- The file for profiles if nothing else names one. -/
def defaultOutput : String := "commprof.out"

/-- The steps of a run that nobody limits. -/
def stepLimit : Nat := 10000000

structure Result where
  files : Files
  stdout : String

def writeFile (fs : Files) (path : String) (bytes : Bytes) : Outcome Files :=
  (fs.write path bytes).within (.writeFile path)

def textBytes (s : String) : Bytes := Utf8.encode s.toList

def instrumentFile (fs : Files) (settings : Instrumenter) (output module : String) :
    Outcome Files := do
  let p ← fs.program module
  let p ← settings.instrument p
  writeFile fs output (textBytes p.toJson.pretty)

/-- Nothing is written for a program that is not instrumented. -/
def runFile (fs : Files) (process : MpiProcess) (output module : String) (args : List String) :
    Outcome Files := do
  let p ← fs.program module
  let records ← (p.run MpiProcess.host process stepLimit (module :: args)).2
  if records.isEmpty then return fs else fs.appendRecords output records

def bindFiles (fs : Files) (module : String) (profiles : List String) : Outcome Binding := do
  let p ← fs.program module
  (← fs.profiles profiles).bind p

def showFiles (fs : Files) (profiles : List String) : Outcome String := do
  return (← fs.profiles profiles).toJson.pretty ++ "\n"

def timeFiles (fs : Files) (kinds : List Price.Kind) (sources : List String)
    (ignore : Option String) (verbose : Bool) (module : String) (profiles : List String) :
    Outcome String := do
  let analyzer ← fs.analyzer kinds sources ignore verbose
  return (← analyzer.run (← bindFiles fs module profiles)).text

/-- The arguments of all executions, and the counts of the blocks. -/
def convertFiles (fs : Files) (output module : String) (profiles : List String) :
    Outcome Files := do
  let bound ← bindFiles fs module profiles
  let blocks ← bound.blockRecord
  let bytes ← encodeRecords (bound.profile.executions.map .arguments ++ [blocks])
  writeFile fs output bytes

def compareFiles (fs : Files) (left right : String) : Outcome Unit := do
  let p ← fs.profile left
  let q ← fs.profile right
  Outcome.require (p.comparable q) (.notComparable left right)

/-- A call, its bytes for each execution of its block, its bytes in all, and the executions. -/
def commLine (bound : Binding) (call : TrappedCall) : String :=
  let frequency := bound.blockFrequency call
  let each : Binary64 :=
    if frequency = 0 then 0 else .ofUInt64 call.bytes / .ofUInt64 frequency
  s!"{call.site.callee}\t{Decimal.reported each}\t{call.bytes}\t{frequency}\n"

def commFiles (fs : Files) (module : String) (profiles : List String) : Outcome String := do
  let bound ← bindFiles fs module profiles
  return String.join (bound.trapped.map (commLine bound))

/-- `environment` is the file for profiles that the environment names. -/
def execute (fs : Files) (environment : Option String) : Command → Outcome Result
  | .instrument settings output module => do
    return ⟨← instrumentFile fs settings output module, ""⟩
  | .run rank size callSeconds output module args => do
    let output := (output <|> environment).getD defaultOutput
    return ⟨← runFile fs (.start rank size callSeconds) output module args, ""⟩
  | .show profiles => do return ⟨fs, ← showFiles fs profiles⟩
  | .timing kinds sources ignore verbose module profiles => do
    return ⟨fs, ← timeFiles fs kinds sources ignore verbose module profiles⟩
  | .convert output module profiles => do return ⟨← convertFiles fs output module profiles, ""⟩
  | .compare left right => do
    compareFiles fs left right
    return ⟨fs, ""⟩
  | .comm module profiles => do return ⟨fs, ← commFiles fs module profiles⟩

/-- How a process ends: its status, what it prints, the message of an error, and the files. -/
structure Ending where
  status : Nat
  stdout : String
  message : Option String
  files : Files

/-- Arguments that are no command end with status 2, errors with 1, and faults with 101. -/
def invoke (fs : Files) (environment : Option String) (args : List String) : Ending :=
  match parse? args with
  | none => ⟨2, "", none, fs⟩
  | some command =>
    match execute fs environment command with
    | .ok result => ⟨0, result.stdout, none, result.files⟩
    | .error (.fault _) => ⟨101, "", none, fs⟩
    | .error failure => ⟨1, "", failure.messages.head?, fs⟩

/-- The files that a command may read or write. -/
def paths (environment : Option String) : Command → List String
  | .instrument _ output module => [output, module]
  | .run _ _ _ output module _ => [(output <|> environment).getD defaultOutput, module]
  | .show profiles => profiles
  | .timing _ sources ignore _ module profiles => sources ++ ignore.toList ++ module :: profiles
  | .convert output module profiles => output :: module :: profiles
  | .compare left right => [left, right]
  | .comm module profiles => module :: profiles

end FlowProfile.Command
