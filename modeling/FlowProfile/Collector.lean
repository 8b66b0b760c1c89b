import FlowProfile.Record.Codec

/-!
Collecting profiles inside the profiled process. Each kind of profiling starts once
and registers its counters, and when the process ends each is written to a file.
-/

namespace FlowProfile

/-- The counters of one kind, as they are now. -/
structure Registration where
  strategy : Strategy
  words : List UInt64
  ranks : List Int32
deriving DecidableEq, Repr

/-- Only some kinds keep the rank. -/
def Registration.record (r : Registration) : Record :=
  match r.strategy with
  | .edgeRank | .rank | .time => r.strategy.record r.words r.ranks
  | .edge | .comm | .weightedBlock => r.strategy.record r.words []

structure Collector where
  /-- The arguments of the last start. -/
  arguments : List String
  wroteArguments : Bool
  registrations : List Registration
deriving DecidableEq, Repr

namespace Collector

def empty : Collector := ⟨[], false, []⟩

def start (c : Collector) (args : List String) (r : Registration) : Collector :=
  { c with arguments := args, registrations := c.registrations ++ [r] }

/-- Changes the counters of one registration. -/
def update (c : Collector) (i : Nat) (change : Registration → Registration) : Collector :=
  { c with registrations := c.registrations.modify i change }

/-- The last registration of that kind. -/
def registration? (c : Collector) (s : Strategy) : Option Registration :=
  c.registrations.reverse.find? (·.strategy == s)

/-- What a write appends: the arguments go before the first record that gets written. -/
def pending (c : Collector) (r : Registration) : List Record :=
  if c.wroteArguments then [r.record] else [.arguments c.arguments, r.record]

/-- Appends the record of a kind that was started. A write that fails changes nothing. -/
def write {σ : Type} (append : σ → Bytes → Outcome σ) (s : Strategy) (state : Collector × σ) :
    Collector × σ :=
  let (c, file) := state
  match c.registration? s with
  | none => state
  | some r =>
    match encodeRecords (c.pending r) >>= append file with
    | .ok file => ({ c with wroteArguments := true }, file)
    | .error _ => state

/-- At the end the last kind that was started is written first. -/
def finish {σ : Type} (append : σ → Bytes → Outcome σ) (c : Collector) (file : σ) : Collector × σ :=
  c.registrations.reverse.foldl (fun state r => write append r.strategy state) (c, file)

end Collector

namespace Registration

def changeWord (i : Nat) (change : UInt64 → UInt64) (r : Registration) : Registration :=
  { r with words := r.words.modify i change }

/-- Adds to a slot that holds the bits of a number. -/
def addNumber (i : Nat) (x : Binary64) : Registration → Registration :=
  changeWord i fun bits => (Binary64.mk bits + x).bits

def addWeight (i : Nat) (weight : Int64) : Registration → Registration :=
  addNumber i (.ofInt64 weight)

def setRank (i : Nat) (rank : Int32) (r : Registration) : Registration :=
  { r with ranks := r.ranks.set i rank }

end Registration

end FlowProfile
