import FlowProfile.Collector
import FlowProfile.Proofs.Profile.Merging
import FlowProfile.Proofs.Record.Truncation

/-!
# Collecting records

The handlers of a process append to one file. Whatever they do and in whatever order, the file holds
what it held before, and behind it the arguments of the process once and the record of every write
that succeeded. What was written is told from the history alone, by `Logged`; the collector knows of
it whether there was any write at all.
-/

namespace FlowProfile

/-- The same counters with other values. -/
def Registration.holding (words : List UInt64) (ranks : List Int32) (r : Registration) :
    Registration :=
  { r with words := words, ranks := ranks }

@[simp] theorem Registration.holding_strategy (words : List UInt64) (ranks : List Int32)
    (r : Registration) : (r.holding words ranks).strategy = r.strategy := rfl

namespace Collector

/-! ### Histories -/

/-- What can happen in a process. -/
inductive Event where
  /-- A kind is started, with counters that hold these values. -/
  | start (args : List String) (r : Registration)
  /-- The counters of a kind change. -/
  | count (s : Strategy) (words : List UInt64) (ranks : List Int32)
  /-- The handler of a kind runs, and the file can be opened or cannot. -/
  | write (s : Strategy) (opens : Bool)
deriving DecidableEq, Repr

def Event.started? : Event → Option Strategy
  | start _ r => some r.strategy
  | count .. | write .. => none

def Event.isWrite : Event → Bool
  | write .. => true
  | start .. | count .. => false

/-- A file that is appended to if it can be opened. -/
def append (opens : Bool) (file bytes : Bytes) : Outcome Bytes :=
  if opens then .ok (file ++ bytes) else .fail .inaccessible

def step (state : Collector × Bytes) : Event → Collector × Bytes
  | .start args r => (state.1.start args r, state.2)
  | .count s words ranks =>
    (state.1.update (state.1.registrations.findIdx (·.strategy == s))
      (Registration.holding words ranks), state.2)
  | .write s opens => write (append opens) s state

def run (events : List Event) (file : Bytes) : Collector × Bytes := events.foldl step (empty, file)

/-- The arguments after an event. -/
def Event.arguments (args : List String) : Event → List String
  | start args' _ => args'
  | count .. | write .. => args

/-- The counters of a kind after an event, if it was started. -/
def Event.counters (s : Strategy) (now : Option Registration) : Event → Option Registration
  | start _ r => if r.strategy = s then some r else now
  | count s' words ranks =>
    if s' = s then now.map (Registration.holding words ranks) else now
  | write .. => now

/-- The arguments of the last start. -/
def argumentsAfter (past : List Event) : List String := past.foldl Event.arguments []

/-- The counters of a kind as they are, if it was started. -/
def countersAfter (s : Strategy) (past : List Event) : Option Registration :=
  past.foldl (Event.counters s) none

@[simp] theorem argumentsAfter_snoc (past : List Event) (e : Event) :
    argumentsAfter (past ++ [e]) = e.arguments (argumentsAfter past) := by
  rw [argumentsAfter, List.foldl_append]
  rfl

@[simp] theorem countersAfter_snoc (s : Strategy) (past : List Event) (e : Event) :
    countersAfter s (past ++ [e]) = e.counters s (countersAfter s past) := by
  rw [countersAfter, List.foldl_append]
  rfl

/-- A write succeeds if the kind was started, the file can be opened and all can be encoded: the
record, and the arguments before the first record. -/
structure Succeeds (past : List Event) (log : List Record) (s : Strategy) (opens : Bool)
    (r : Registration) : Prop where
  opens : opens = true
  counters : countersAfter s past = some r
  record : r.record.IsEncodable
  arguments : log = [] → (Record.arguments (argumentsAfter past)).IsEncodable

/-- The records that are written in the course of some events. -/
inductive Logged : List Event → List Record → Prop
  | nil : Logged [] []
  | quiet {past : List Event} {log : List Record} {e : Event} (h : Logged past log)
      (he : e.isWrite = false) : Logged (past ++ [e]) log
  | failed {past : List Event} {log : List Record} {s : Strategy} {opens : Bool}
      (h : Logged past log) (hs : ∀ r, ¬Succeeds past log s opens r) :
      Logged (past ++ [.write s opens]) log
  | first {past : List Event} {s : Strategy} {opens : Bool} {r : Registration}
      (h : Logged past []) (hs : Succeeds past [] s opens r) :
      Logged (past ++ [.write s opens]) [.arguments (argumentsAfter past), r.record]
  | next {past : List Event} {log : List Record} {s : Strategy} {opens : Bool} {r : Registration}
      (h : Logged past log) (hne : log ≠ []) (hs : Succeeds past log s opens r) :
      Logged (past ++ [.write s opens]) (log ++ [r.record])

variable {past events : List Event} {log : List Record} {c : Collector} {file : Bytes}

/-- The collector knows the last arguments, the counters as they are, and whether anything was
written. -/
structure Tracks (past : List Event) (log : List Record) (c : Collector) : Prop where
  arguments : c.arguments = argumentsAfter past
  wroteArguments : c.wroteArguments = !log.isEmpty
  registration? : ∀ s, c.registration? s = countersAfter s past
  kinds : c.registrations.map (·.strategy) = past.filterMap Event.started?

theorem tracks_empty : Tracks [] [] empty := ⟨rfl, rfl, fun _ => rfl, rfl⟩

theorem Tracks.start (h : Tracks past log c) (args : List String) (r : Registration) :
    Tracks (past ++ [.start args r]) log (c.start args r) where
  arguments := by
    rw [argumentsAfter_snoc]
    rfl
  wroteArguments := h.wroteArguments
  registration? s := by
    rw [countersAfter_snoc, ← h.registration? s]
    by_cases hr : r.strategy = s <;>
      simp [Collector.registration?, Collector.start, Event.counters, hr]
  kinds := by simp [Collector.start, h.kinds, Event.started?]

/-- If each kind was started once, the last of a kind is the first. -/
theorem find?_reverse {registrations : List Registration}
    (h : (registrations.map (·.strategy)).Nodup) (s : Strategy) :
    registrations.reverse.find? (·.strategy == s) = registrations.find? (·.strategy == s) := by
  induction registrations with
  | nil => rfl
  | cons r registrations ih =>
      rw [List.map_cons, List.nodup_cons] at h
      rw [List.reverse_cons, List.find?_append, ih h.2]
      by_cases hr : r.strategy = s
      · have hnone : registrations.find? (·.strategy == s) = none := by
          rw [List.find?_eq_none]
          intro r' hr' hsame
          exact h.1 (List.mem_map.mpr ⟨r', hr', (beq_iff_eq.mp hsame).trans hr.symm⟩)
        simp [hr, hnone]
      · simp [hr]

theorem find?_modify_findIdx (registrations : List Registration) (s s' : Strategy)
    {change : Registration → Registration} (hchange : ∀ r, (change r).strategy = r.strategy) :
    (registrations.modify (registrations.findIdx (·.strategy == s)) change).find?
        (·.strategy == s') =
      if s = s' then (registrations.find? (·.strategy == s')).map change
      else registrations.find? (·.strategy == s') := by
  induction registrations with
  | nil => simp
  | cons r registrations ih =>
      rw [List.findIdx_cons]
      by_cases hr : r.strategy = s
      · by_cases hs : s = s' <;> simp [hr, hs, hchange]
      · rw [beq_eq_false_iff_ne.mpr hr, cond_false, List.modify_succ_cons, List.find?_cons,
          List.find?_cons, ih]
        by_cases hs : r.strategy = s'
        · have hne : s ≠ s' := fun hsame => hr (hs.trans hsame.symm)
          simp [hs, hne]
        · rw [beq_eq_false_iff_ne.mpr hs]

theorem Tracks.count (h : Tracks past log c) (hkinds : (past.filterMap Event.started?).Nodup)
    (s : Strategy) (words : List UInt64) (ranks : List Int32) :
    Tracks (past ++ [.count s words ranks]) log
      (c.update (c.registrations.findIdx (·.strategy == s))
        (Registration.holding words ranks)) := by
  have hsame : (c.registrations.modify (c.registrations.findIdx (·.strategy == s))
      (Registration.holding words ranks)).map (·.strategy) =
        c.registrations.map (·.strategy) := by
    refine List.ext_getElem? fun i => ?_
    simp only [List.getElem?_map, List.getElem?_modify]
    split <;> cases c.registrations[i]? <;> rfl
  have hnodup : (c.registrations.map (·.strategy)).Nodup := h.kinds ▸ hkinds
  constructor
  · rw [argumentsAfter_snoc]
    exact h.arguments
  · exact h.wroteArguments
  · intro s'
    have hs' := h.registration? s'
    rw [Collector.registration?, find?_reverse hnodup] at hs'
    rw [Collector.registration?, Collector.update, find?_reverse (hsame ▸ hnodup),
      find?_modify_findIdx _ _ _ (Registration.holding_strategy words ranks), countersAfter_snoc,
      hs']
    rfl
  · rw [Collector.update, hsame, h.kinds, List.filterMap_append]
    exact (List.append_nil _).symm

/-! ### Writing -/

/-- A write appends what the log has more, or changes nothing. -/
theorem Tracks.write_succeeds (h : Tracks past log c) {s : Strategy} {opens : Bool}
    {r : Registration} (hs : Succeeds past log s opens r) :
    ∃ bytes, encodeRecords (c.pending r) = .ok bytes ∧
      write (append opens) s (c, file) = ({ c with wroteArguments := true }, file ++ bytes) := by
  have hall : ∀ record ∈ c.pending r, record.IsEncodable := by
    intro record hmem
    rw [pending, h.wroteArguments] at hmem
    cases log with
    | nil =>
        rw [h.arguments] at hmem
        rcases List.mem_pair.mp hmem with rfl | rfl
        · exact hs.arguments rfl
        · exact hs.record
    | cons first log =>
        obtain rfl : record = r.record := List.mem_singleton.mp hmem
        exact hs.record
  obtain ⟨bytes, hbytes⟩ := (exists_encodeRecords_iff _).mpr hall
  refine ⟨bytes, hbytes, ?_⟩
  have happend : append opens file bytes = .ok (file ++ bytes) := if_pos hs.opens
  simp only [write, h.registration? s, hs.counters, hbytes, Outcome.ok_bind, happend]

theorem Tracks.write_fails (h : Tracks past log c) {s : Strategy} {opens : Bool}
    (hs : ∀ r, ¬Succeeds past log s opens r) : write (append opens) s (c, file) = (c, file) := by
  simp only [write, h.registration? s]
  cases hcounters : countersAfter s past with
  | none => rfl
  | some r =>
      simp only
      cases hwrite : encodeRecords (c.pending r) >>= append opens file with
      | error failure => rfl
      | ok file' =>
          exfalso
          obtain ⟨bytes, hbytes, happend⟩ := Outcome.bind_eq_ok_iff.mp hwrite
          have hall := (exists_encodeRecords_iff _).mp ⟨bytes, hbytes⟩
          rw [pending, h.wroteArguments] at hall
          refine hs r ⟨?_, hcounters, hall _ ?_, ?_⟩
          · cases opens with
            | true => rfl
            | false => cases happend
          · split <;> simp
          · rintro rfl
            rw [← h.arguments]
            exact hall _ (by simp)

/-! ### Runs -/

theorem run_snoc (past : List Event) (e : Event) (file : Bytes) :
    run (past ++ [e]) file = step (run past file) e := by
  rw [run, List.foldl_append]
  rfl

/-- The state of the process after some events: the file holds what was logged, behind what it held
before. -/
structure Reaches (file : Bytes) (past : List Event) (log : List Record) : Prop where
  tracks : Tracks past log (run past file).1
  file : ∃ bytes, encodeRecords log = .ok bytes ∧ (run past file).2 = file ++ bytes

theorem Reaches.quiet (h : Reaches file past log)
    (hkinds : (past.filterMap Event.started?).Nodup) {e : Event} (he : e.isWrite = false) :
    Reaches file (past ++ [e]) log := by
  cases e with
  | write s opens => cases he
  | start args r =>
      constructor
      · rw [run_snoc]
        exact h.tracks.start args r
      · rw [run_snoc]
        exact h.file
  | count s words ranks =>
      constructor
      · rw [run_snoc]
        exact h.tracks.count hkinds s words ranks
      · rw [run_snoc]
        exact h.file

theorem Reaches.run_failed (h : Reaches file past log) {s : Strategy} {opens : Bool}
    (hs : ∀ r, ¬Succeeds past log s opens r) :
    run (past ++ [.write s opens]) file = run past file := by
  rw [run_snoc]
  exact h.tracks.write_fails hs

theorem Tracks.write (h : Tracks past log c) (s : Strategy) (opens : Bool) :
    Tracks (past ++ [.write s opens]) log c where
  arguments := by
    rw [argumentsAfter_snoc]
    exact h.arguments
  wroteArguments := h.wroteArguments
  registration? s' := by
    rw [countersAfter_snoc]
    exact h.registration? s'
  kinds := by simp [h.kinds, Event.started?]

theorem Reaches.failed (h : Reaches file past log) {s : Strategy} {opens : Bool}
    (hs : ∀ r, ¬Succeeds past log s opens r) : Reaches file (past ++ [.write s opens]) log := by
  have hrun := h.run_failed hs
  constructor
  · rw [hrun]
    exact h.tracks.write s opens
  · rw [hrun]
    exact h.file

theorem Reaches.succeeded (h : Reaches file past log) {s : Strategy} {opens : Bool}
    {r : Registration} (hs : Succeeds past log s opens r) :
    Reaches file (past ++ [.write s opens]) (log ++ (run past file).1.pending r) := by
  obtain ⟨front, hfront, hfile⟩ := h.file
  obtain ⟨tail, htail, hwrite⟩ : ∃ bytes, _ ∧ write (append opens) s (run past file) =
      ({ (run past file).1 with wroteArguments := true }, (run past file).2 ++ bytes) :=
    h.tracks.write_succeeds hs
  have hrun : run (past ++ [.write s opens]) file =
      ({ (run past file).1 with wroteArguments := true }, file ++ (front ++ tail)) := by
    rw [run_snoc, ← List.append_assoc, ← hfile]
    exact hwrite
  constructor
  · rw [hrun]
    have htracks := h.tracks.write s opens
    have hne : log ++ (run past file).1.pending r ≠ [] := by
      unfold pending
      split <;> simp
    refine ⟨htracks.arguments, ?_, htracks.registration?, htracks.kinds⟩
    simpa using hne
  · exact ⟨front ++ tail, encodeRecords_append hfront htail, by rw [hrun]⟩

theorem Logged.reaches (h : Logged events log) (hkinds : (events.filterMap Event.started?).Nodup)
    (file : Bytes) : Reaches file events log := by
  induction h with
  | nil => exact ⟨tracks_empty, [], rfl, (List.append_nil file).symm⟩
  | @quiet past log e h he ih =>
      rw [List.filterMap_append] at hkinds
      have hpast := hkinds.of_append_left
      exact (ih hpast).quiet hpast he
  | @failed past log s opens h hs ih =>
      rw [List.filterMap_append] at hkinds
      exact (ih hkinds.of_append_left).failed hs
  | @first past s opens r h hs ih =>
      rw [List.filterMap_append] at hkinds
      have hpast := ih hkinds.of_append_left
      have hreach := hpast.succeeded hs
      rw [pending, hpast.tracks.wroteArguments, hpast.tracks.arguments] at hreach
      exact hreach
  | @next past log s opens r h hne hs ih =>
      rw [List.filterMap_append] at hkinds
      have hpast := ih hkinds.of_append_left
      have hreach := hpast.succeeded hs
      have hwrote : (!log.isEmpty) = true := by simpa using hne
      rw [pending, hpast.tracks.wroteArguments, hwrote] at hreach
      exact hreach

/-! ### The file -/

theorem executions_record (r : Registration) : r.record.profile.executions = [] := by
  unfold Registration.record
  cases r.strategy <;> rfl

/-- The arguments come first and only once. -/
theorem Logged.executions (h : Logged events log) :
    log = [] ∨ ∃ args rest, log = .arguments args :: rest ∧
      rest.flatMap (·.profile.executions) = [] := by
  induction h with
  | nil => exact .inl rfl
  | quiet _ _ ih => exact ih
  | failed _ _ ih => exact ih
  | @first past s opens r _ _ _ => exact .inr ⟨_, [r.record], rfl, by simp [executions_record]⟩
  | @next past log s opens r _ hne _ ih =>
      obtain ⟨args, rest, rfl, hrest⟩ := ih.resolve_left hne
      exact .inr ⟨args, rest ++ [r.record], rfl, by simp [hrest, executions_record]⟩

/-- A history has one log. -/
theorem Logged.unique {other : List Record} (h : Logged events log) (hother : Logged events other)
    (hkinds : (events.filterMap Event.started?).Nodup) : other = log := by
  obtain ⟨bytes, hbytes, hfile⟩ := (h.reaches hkinds []).file
  obtain ⟨bytes', hbytes', hfile'⟩ := (hother.reaches hkinds []).file
  obtain rfl : bytes' = bytes := hfile'.symm.trans hfile
  exact Except.ok.inj ((decodeRecords_whole hbytes').symm.trans (decodeRecords_whole hbytes))

/-- What a file holds after some events, and what can be read from it. -/
structure Keeps (file : Bytes) (events : List Event) (log : List Record) : Prop where
  logged : Logged events log
  unique : ∀ other, Logged events other → other = log
  appended : ∃ bytes, encodeRecords log = .ok bytes ∧ (run events file).2 = file ++ bytes
  /-- A write that does not succeed changes neither the file nor the collector. -/
  failed : ∀ s opens, (∀ r, ¬Succeeds events log s opens r) →
    run (events ++ [.write s opens]) file = run events file
  decoded : ∀ old, decodeRecords file = .ok old →
    decodeRecords (run events file).2 = .ok (old ++ log)
  /-- The process is one execution if it wrote anything. -/
  executions : ∀ before after, Profile.ofBytes file = .ok before →
    Profile.ofBytes (run events file).2 = .ok after →
    log = [] ∧ after.executions = before.executions ∨
      ∃ args rest, log = .arguments args :: rest ∧
        after.executions = before.executions ++ [args]

end Collector

end FlowProfile
