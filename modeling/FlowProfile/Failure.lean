import FlowProfile.Graph.Basic
import FlowProfile.Text.Utf8

/-!
What can go wrong, as causes and as the contexts that a cause passes on its way
out, with the text of each.
-/

namespace FlowProfile

/-- An operation on numbers or lists that has no result. No message belongs to it. -/
inductive Fault where
  /-- A sum or a product of counters of 64 bits that does not fit. -/
  | overflow
  /-- A block, an instruction or an edge that is not there. -/
  | outOfRange
deriving DecidableEq, Repr

inductive Cause where
  -- programs
  | missingTarget (block : BlockId) (function : String) (target : BlockId)
  | entryTarget (block : BlockId) (function : String)
  | counterExists (name : String)
  -- instrumentation
  | entryWithoutBody (name : String)
  | edgeStrategiesCombined
  | tooManyEdges (count : Nat)
  | tooManyBlocks (count : Nat)
  | notAWord
  | successorLost (succ : Nat) (block : BlockId)
  | edgesMiscounted (inserted reserved : Nat)
  | unknownWeightFunction (name : String)
  | weightOutOfRange (block : BlockId) (function : String) (blocks : Nat)
  | unknownStrategy (text : String)
  | invalidWeight (text : String)
  -- execution
  | loadFromCounters (name : String)
  | storeThrough (operand : Operand)
  | noOutputArgument (callee : String)
  | noMain
  | noBody (name : String)
  | callDepth (limit : Nat)
  | stepLimit (limit : Nat)
  | unreachableCode (function : String)
  | missingOperand (opcode : String) (index : Nat)
  | bogusFunction (index : Int64)
  | notCounters (callee : String) (operand : Operand)
  | unknownCounters (entryPoint name : String)
  | noU64Counters (name : String)
  | slotOutOfBounds (slot : Nat) (name : String)
  | noI32Slot (slot : Nat) (name : String)
  | noF64Slot (slot : Nat) (name : String)
  | timerNotStarted
  -- records
  | nulInArgument (argument : String)
  | recordTooLarge (elements : Nat)
  | truncatedArguments (need remain : Nat)
  | truncated (need remain : Nat)
  | unknownRecord (tag : Nat)
  -- profiles
  | incompatible (what : String) (left right : Nat)
  | incompatibleComm (left right : Nat)
  | noProfiles
  | edgesMismatch (counters edges : Nat)
  | blocksMismatch (counters blocks : Nat)
  | weightsMismatch (counters blocks : Nat)
  | commMismatch (counters sites : Nat)
  | legacyCommMismatch (counters sites : Nat)
  | timesMismatch (counters sites : Nat)
  | noBlockCounts
  | notComparable (left right : String)
  -- prices
  | unknownTimingKind (text : String)
  | tooFewFiles (sources files : Nat)
  -- text, documents and files
  | notUtf8 (malformed : Utf8.Malformed)
  | badDocument
  | inaccessible
deriving DecidableEq, Repr

/-- A document that does not parse and a file that cannot be used have no text of their own. -/
def Cause.message? : Cause → Option String
  | .missingTarget block function target =>
    some s!"block {block} of `{function}` branches to nonexistent block {target}"
  | .entryTarget block function =>
    some (s!"block {block} of `{function}` branches to the entry block; " ++
      "loop headers need a separate entry block")
  | .counterExists name =>
    some s!"counter array `{name}` already exists; was this module already instrumented?"
  | .entryWithoutBody name => some s!"entry function `{name}` has no body"
  | .edgeStrategiesCombined =>
    some "the edge and edge-rank strategies write the same edge counters and cannot be combined"
  | .tooManyEdges count => some s!"too many edges to instrument: {count}"
  | .tooManyBlocks count => some s!"too many blocks to instrument: {count}"
  | .notAWord => some "out of range integral type conversion attempted"
  | .successorLost succ block => some s!"successor {succ} of block {block} disappeared"
  | .edgesMiscounted inserted reserved =>
    some s!"inserted {inserted} edge counters but reserved {reserved}"
  | .unknownWeightFunction name => some s!"cannot weigh blocks of unknown function `{name}`"
  | .weightOutOfRange block function blocks =>
    some s!"cannot weigh block {block} of `{function}`: it has {blocks} blocks"
  | .unknownStrategy text =>
    some (s!"Unknown instrumentation strategy '{text}'; valid strategies are: " ++
      "edge, edge-rank, rank, comm, time, weighted-block")
  | .invalidWeight text =>
    some s!"invalid block weight '{text}'; expected FUNCTION:BLOCK=WEIGHT"
  | .loadFromCounters name => some s!"cannot load counter array `{name}` as a value"
  | .storeThrough operand => some ("cannot store through " ++ operand.quoted)
  | .noOutputArgument callee => some s!"`{callee}` called without an output argument"
  | .noMain => some "module has no `main` function"
  | .noBody name => some s!"no body for function `{name}`"
  | .callDepth limit => some s!"call depth exceeded {limit}"
  | .stepLimit limit => some s!"step limit of {limit} exceeded"
  | .unreachableCode function => some s!"reached unreachable code in `{function}`"
  | .missingOperand opcode index => some s!"`{opcode}` is missing operand {index}"
  | .bogusFunction index => some s!"indirect call to bogus function {index}"
  | .notCounters callee operand =>
    some (s!"`{callee}` expects counter arrays, got " ++ operand.quoted)
  | .unknownCounters entryPoint name =>
    some s!"`{entryPoint}` was passed unknown counter array `{name}`"
  | .noU64Counters name => some s!"no u64 counter array named `{name}`"
  | .slotOutOfBounds slot name => some s!"slot {slot} out of bounds for `{name}`"
  | .noI32Slot slot name => some s!"no i32 slot {slot} in `{name}`"
  | .noF64Slot slot name => some s!"no f64 slot {slot} in `{name}`"
  | .timerNotStarted => some "timer stopped without being started"
  | .nulInArgument argument => some ("argument " ++ Text.quote argument ++ " contains a NUL byte")
  | .recordTooLarge elements => some s!"record of {elements} elements is too large to encode"
  | .truncatedArguments need remain =>
    some s!"profile is truncated: arguments need {need} bytes but only {remain} remain"
  | .truncated need remain =>
    some s!"profile is truncated: needed {need} more bytes but only {remain} remain"
  | .unknownRecord tag => some s!"unknown profile record type {tag}"
  | .incompatible what left right =>
    some (s!"incompatible {what} counters: {left} versus {right}; " ++
      "were these profiles recorded from the same program?")
  | .incompatibleComm left right =>
    some s!"incompatible communication counters: {left} versus {right}"
  | .noProfiles => some "no profile files given"
  | .edgesMismatch counters edges =>
    some (s!"edge profile has {counters} counters but the module has {edges} edges; " ++
      "was the profile recorded from this module?")
  | .blocksMismatch counters blocks =>
    some s!"block profile has {counters} counters but the module has {blocks} blocks"
  | .weightsMismatch counters blocks =>
    some s!"weighted block profile has {counters} counters but the module has {blocks} blocks"
  | .commMismatch counters sites =>
    some s!"communication profile has {counters} sites but the module has {sites}"
  | .legacyCommMismatch counters sites =>
    some s!"legacy communication profile has {counters} sites but the module has {sites}"
  | .timesMismatch counters sites =>
    some s!"timing profile has {counters} sites but the module has {sites}"
  | .noBlockCounts => some "profile has no edge or block counts"
  | .notComparable left right => some s!"`{left}` and `{right}` are not comparable"
  | .unknownTimingKind text =>
    some s!"Unknown timing source '{text}'; valid sources are: block, mpi, libcall"
  | .tooFewFiles sources files =>
    some (s!"not enough files to initialize timing sources: {sources} sources " ++
      s!"but {files} files")
  | .notUtf8 malformed => some malformed.message
  | .badDocument => none
  | .inaccessible => none

inductive Context where
  | inBlock (block function : String)
  | recordAt (offset : Nat)
  | argumentsNotUtf8
  | openModule (path : String)
  | parseModule (path : String)
  | openProfile (path : String)
  | readProfile (path : String)
  | decodeProfile (path : String)
  | invalidProfile (path : String)
  | mergeProfile (path : String)
  | openIgnore (path : String)
  | readSource (kind path : String)
  | invalidSource (kind path : String)
  | writeFile (path : String)
deriving DecidableEq, Repr

def Context.message : Context → String
  | .inBlock block function => s!"in block `{block}` of `{function}`"
  | .recordAt offset => s!"malformed profile record at offset {offset}"
  | .argumentsNotUtf8 => "arguments are not valid UTF-8"
  | .openModule path => s!"failed to open module `{path}`"
  | .parseModule path => s!"failed to parse module `{path}`"
  | .openProfile path => s!"failed to open profile `{path}` for writing"
  | .readProfile path => s!"failed to read profile `{path}`"
  | .decodeProfile path => s!"failed to decode profile `{path}`"
  | .invalidProfile path => s!"invalid profile `{path}`"
  | .mergeProfile path => s!"cannot merge `{path}`"
  | .openIgnore path => s!"couldn't open ignore file `{path}`"
  | .readSource kind path => s!"failed to read {kind} timing source `{path}`"
  | .invalidSource kind path => s!"invalid {kind} timing source `{path}`"
  | .writeFile path => s!"failed to write `{path}`"

inductive Failure where
  /-- The contexts are listed from the outermost one in. -/
  | error (contexts : List Context) (cause : Cause)
  | fault (fault : Fault)
deriving DecidableEq, Repr

/-- The same failure seen from further out. -/
def Failure.within (context : Context) : Failure → Failure
  | .error contexts cause => .error (context :: contexts) cause
  | .fault f => .fault f

/-- The messages of an error, from the outermost one in. -/
def Failure.messages : Failure → List String
  | .error contexts cause => contexts.map Context.message ++ cause.message?.toList
  | .fault _ => []

abbrev Outcome := Except Failure

namespace Outcome

variable {α : Type}

def fail (cause : Cause) : Outcome α := .error (.error [] cause)

def fault (fault : Fault) : Outcome α := .error (.fault fault)

def require (p : Prop) [Decidable p] (cause : Cause) : Outcome Unit :=
  if p then .ok () else fail cause

/-- Adds a context to a failure. -/
def within (context : Context) : Outcome α → Outcome α
  | .ok a => .ok a
  | .error failure => .error (failure.within context)

/-- The value of an option that has one. -/
def ofOption (cause : Cause) : Option α → Outcome α
  | some a => .ok a
  | none => fail cause

/-- The state that a run leaves, unless the run failed. -/
def ofResult {σ : Type} : EStateM.Result Failure σ Unit → Outcome σ
  | .ok _ s => .ok s
  | .error failure _ => .error failure

/-- The element at a place that has to be there. -/
def get (xs : List α) (i : Nat) : Outcome α :=
  match xs[i]? with
  | some a => .ok a
  | none => fault .outOfRange

end Outcome

end FlowProfile
