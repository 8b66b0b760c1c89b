import FlowProfile.Proofs.Exec.ExactTimes
import FlowProfile.Proofs.Exec.Library
import FlowProfile.Proofs.Profile.FreshProfile

/-!
# Profiles of times are exact

Instrumenting, running, adding up the records and binding the profile to the plain program, one
after another: the binding has an entry for each recognised call, with the times that the call took
in the run, all added up in the order in which it was made.
-/

namespace FlowProfile

/-! ### What an interval measures -/

namespace Program

variable {splitting : Prop} {added : Inst → Prop} {p q : Program} {v : Interval}

/-- Whatever else was added to the program, the times of an interval are what its calls last. -/
theorem Times.elapsed_eq {state : MpiProcess} {limit : ℕ} {args : List String}
    {m : Machine MpiProcess} {records : List Record} (h : p.Times q v)
    (hedit : p.Edited splitting added q)
    (houtside : ∀ f ∈ p.functions, f.isDeclaration = false → Comm.Operation.lookup? f.name = none)
    (hrun : q.run MpiProcess.host state limit args = (m, .ok records)) :
    v.elapsed MpiProcess.host (q.trace MpiProcess.host state limit) =
      whenever (·.lasts q) v.calling (q.trace MpiProcess.host state limit) := by
  obtain ⟨name, operands, op, hcall, hop⟩ := h.exists_call
  have hdefinition : q.definition? name = none := by
    rw [hedit.definition?_eq]
    exact definition?_eq_none_of_lookup? houtside hop
  -- the clock stands still from the start to the call
  have hstarts : v.starts MpiProcess.host (q.trace MpiProcess.host state limit) =
      whenever Config.clock v.calling (q.trace MpiProcess.host state limit) := by
    refine clock_trace_append hrun (.timerStart :: v.lead) h.stands ?_
    rintro inst (_ | ⟨_, hlead⟩)
    · rfl
    · exact (h.added inst (.inl hlead)).1
  -- and from behind the call to the stop
  have hstops : v.stops MpiProcess.host (q.trace MpiProcess.host state limit) =
      whenever (·.clockAfter q) v.calling (q.trace MpiProcess.host state limit) := by
    have hbehind : whenever (·.clockAfter q) v.calling (q.trace MpiProcess.host state limit) =
        whenever Config.clock ⟨v.function, v.block, v.between ++ v.stop.rest⟩
          (q.trace MpiProcess.host state limit) :=
      whenever_trace_behind hrun h.calling_isIn
        (fun _ _ _ _ => hcall ▸ Machine.library_ne_enter hop hdefinition)
        fun _ _ _ hm _ => hm.clockAfter_eq
    rw [hbehind]
    exact (clock_trace_append hrun v.between h.calling_isIn.tail
      fun inst hbetween => (h.added inst (.inr hbetween)).1).symm
  rw [Interval.elapsed, hstarts, hstops, zipWith_whenever]
  rfl

end Program

/-! ### Entries of the binding -/

/-- The entries of a binding are the sites of the program, each with its number. -/
theorem Profile.timed_of_bind {profile : Profile} {p : Program} {binding : Binding}
    {seconds : List Binary64} (h : profile.bind p = .ok binding)
    (hseconds : profile.commSeconds = some seconds) :
    seconds.length = p.timedSites.length ∧
      binding.timed = (p.timedSites.zip seconds).map fun x => ⟨x.1, x.2⟩ := by
  obtain ⟨_, _, timed, -, -, -, htimed, rfl⟩ := bind_eq_ok_iff.mp h
  exact (bindTimes_some hseconds).mp htimed

/-- An entry for a numbered site reports what the executions of its call lasted, from the clock
before the call to the clock after it. -/
structure TimedCall.TimesRun (p q : Program) (trace : List (Config MpiProcess))
    (numbered : Comm.Site × ℕ) (entry : TimedCall) : Prop where
  site : entry.site = numbered.1
  measured : ∃ v, v.slot = numbered.2 ∧ p.Times q v
  seconds : ∀ v, v.slot = numbered.2 → p.Times q v →
    entry.seconds = (whenever (·.lasts q) v.calling trace).foldl (· + ·) .zero

namespace Instrumenter

variable {ins : Instrumenter} {p q : Program} {main : ℕ} {records : List Record}

/-- The records of times are all the same, one for each entry of the entry function, and hold what
the slots do at the end. -/
theorem seconds_of_run {σ : Type} {host : Host σ} {state : σ} {limit : ℕ} {args : List String}
    {m : Machine σ} (hp : p.IsUninstrumented) (hins : ins.instrument p = .ok q)
    (hs : .time ∈ ins.strategies) (hmain : p.functionIndex? ins.entry = some main)
    (hrun : q.run host state limit args = (m, .ok records)) :
    ∃ seconds, ((records.map Record.profile).map Profile.commSeconds).reduceOption =
        List.replicate (activations (q.visits host state limit) main) seconds ∧
      ∀ k, k < p.timedSites.length → ∃ x, seconds[k]? = some x ∧
        m.counters.f64Slot timeCounters k = .ok x := by
  obtain ⟨words, ranks, hrecord, -, hslots⟩ :=
    (sized_of_run hp.1 hins hs hmain hrun).numbers Strategy.passes_time (by simp [Pass.type]) rfl
  refine ⟨_, parts_of_run hp hins hs hmain hrun hrecord rfl (fun _ => rfl) ?_, hslots⟩
  intro t _ ht words ranks
  cases t with
  | time => exact absurd rfl ht
  | _ => rfl

/-- Profiles of times are exact: the records of a run of the instrumented program that enters the
entry function once can be added up and bound to the plain program, and the binding has one entry
for each site, in order, with the sum of what its executions lasted. -/
theorem timeProfile_exact (hp : p.IsUninstrumented)
    (houtside : ∀ f ∈ p.functions, f.isDeclaration = false → Comm.Operation.lookup? f.name = none)
    (hins : ins.instrument p = .ok q) (hs : .time ∈ ins.strategies) (state : MpiProcess)
    (limit : ℕ) (args : List String)
    (hrun : (q.run MpiProcess.host state limit args).2 = .ok records)
    (hmain : p.functionIndex? ins.entry = some main)
    (honce : activations (q.visits MpiProcess.host state limit) main = 1) :
    ∃ profile binding, Profile.ofRecords records = .ok profile ∧ profile.bind p = .ok binding ∧
      List.Forall₂ (TimedCall.TimesRun p q (q.trace MpiProcess.host state limit))
        p.timedSites.zipIdx binding.timed := by
  obtain ⟨m, hm⟩ : ∃ m, q.run MpiProcess.host state limit args = (m, .ok records) :=
    ⟨_, Prod.ext rfl hrun⟩
  obtain ⟨profile, binding, hprofile, hbinding⟩ := exists_bound_of_run hp hins hm
  obtain ⟨-, used, hgrows, -⟩ := instrument_grows hp.1 hins
  -- one of the records alone holds times
  obtain ⟨seconds, honly, hslots⟩ := seconds_of_run hp hins hs hmain hm
  rw [honce] at honly
  have hseconds := Profile.ofRecords_only (fun _ _ => rfl) rfl honly hprofile
  obtain ⟨hlen, htimed⟩ := Profile.timed_of_bind hbinding hseconds
  obtain ⟨hmeasured, -, -, hreturns⟩ :=
    times_exact hp.1 hins hs hmain MpiProcess.host state limit
  obtain ⟨-, htotals⟩ := hreturns args m records hm
  refine ⟨profile, binding, hprofile, hbinding, ?_⟩
  rw [htimed, List.forall₂_iff_get]
  refine ⟨by simp [hlen], fun i hi hi' => ?_⟩
  rw [List.length_zipIdx] at hi
  obtain ⟨x, hx, hholds⟩ := hslots i hi
  obtain ⟨hlt, rfl⟩ := List.getElem?_eq_some_iff.mp hx
  simp only [List.get_eq_getElem, List.getElem_zipIdx, List.getElem_map, List.getElem_zip,
    Nat.zero_add]
  refine ⟨rfl, hmeasured i hi, ?_⟩
  rintro v rfl htimes
  obtain ⟨-, htotal⟩ := htotals v htimes
  rw [Except.ok.inj (hholds.symm.trans htotal), htimes.elapsed_eq hgrows.edited houtside hm,
    Binary64.total, Binary64.ofInt64_zero]

end Instrumenter

/-- Two messages in a loop, and a barrier that another function calls behind it. -/
def exchangeTwice : Program where
  functions := [
    ⟨"main", [
      ⟨"entry", [], .br 1⟩,
      ⟨"body", [.op "add" (some "i") [.var "i", .const 1],
        .call (.direct "MPI_Send") [.const 0, .var "i", .const 8],
        .op "lt" (some "again") [.var "i", .const 3],
        .call (.direct "mpi_recv_") [.const 0, .var "i", .const 8]], .condBr (.var "again") 1 2⟩,
      ⟨"exit", [.call (.direct "finish") []], .ret⟩]⟩,
    ⟨"finish", [⟨"entry", [.call (.direct "MPI_Barrier") []], .ret⟩]⟩]
  globals := []

def exchangeTwiceTimed : Program where
  functions := [
    ⟨"main", [
      ⟨"entry", [Strategy.comm.registration, Strategy.time.registration,
        Strategy.rank.registration], .br 1⟩,
      ⟨"body", [.op "add" (some "i") [.var "i", .const 1],
        .timerStart, .call (.direct "MPI_Send") [.const 0, .var "i", .const 8],
        .accumulate "__commprof_comm_counters" 0 (.var "i") (.const 8), .timerStop timeCounters 0,
        .op "lt" (some "again") [.var "i", .const 3],
        .timerStart, .call (.direct "mpi_recv_") [.const 0, .var "i", .const 8],
        .accumulate "__commprof_comm_counters" 2 (.var "i") (.const 8), .timerStop timeCounters 1],
        .condBr (.var "again") 1 2⟩,
      ⟨"exit", [.call (.direct "finish") []], .ret⟩]⟩,
    ⟨"finish", [⟨"entry", [.timerStart, .call (.direct "MPI_Barrier") [],
      .timerStop timeCounters 2], .ret⟩]⟩]
  globals := [⟨"__commprof_rank", .i32, 1, -1⟩, ⟨timeCounters, .f64, 3, 0⟩,
    ⟨"__commprof_time_ranks", .i32, 1, -1⟩, ⟨"__commprof_comm_counters", .u64, 4, 0⟩]

/-- The second message, whose payload is counted before the timer is stopped. -/
def receiveInterval : Interval where
  function := 0
  block := 1
  lead := []
  call := .call (.direct "mpi_recv_") [.const 0, .var "i", .const 8]
  between := [.accumulate "__commprof_comm_counters" 2 (.var "i") (.const 8)]
  slot := 1
  after := []

/-- Each call lasts a tenth of a second, as near as a number comes to that. What the messages last
differs in the last place, since the clock is rounded as well. -/
theorem timeProfile_exchangeTwice :
    ∃ profile binding entry, Profile.ofRecords [.arguments [], .comm [⟨3, 48⟩, ⟨3, 48⟩],
        .time [⟨0x3FD3333333333334⟩, ⟨0x3FD3333333333332⟩, ⟨0x3FB9999999999998⟩] [-1],
        .ranks [-1]] = .ok profile ∧ profile.bind exchangeTwice = .ok binding ∧
      binding.timed.length = 3 ∧ binding.timed[1]? = some entry ∧
      entry.site.callee = "mpi_recv_" ∧ entry.seconds = ⟨0x3FD3333333333332⟩ := by
  have hins : Instrumenter.instrument ⟨[.rank, .time, .comm], "main", []⟩ exchangeTwice =
      .ok exchangeTwiceTimed := rfl
  have hmain : exchangeTwice.functionIndex? "main" = some 0 := rfl
  obtain ⟨profile, binding, hprofile, hbinding, hentries⟩ := Instrumenter.timeProfile_exact
    (by decide) (by decide) hins (by decide) (.start 0 1 ⟨0x3FB999999999999A⟩) 100 [] rfl hmain rfl
  have hlen : binding.timed.length = 3 := hentries.length_eq.symm.trans rfl
  have hentry := hentries.get (i := 1) (by decide) (by omega)
  have hbetween : ∀ inst ∈ receiveInterval.between, inst.isOriginal = false ∧ inst.Timeless := by
    rintro inst (_ | ⟨_, ⟨⟩⟩)
    exact ⟨rfl, rfl, rfl⟩
  have htimes : exchangeTwice.Times exchangeTwiceTimed receiveInterval :=
    ⟨⟨_, rfl, [_, _, _, _, _, _], rfl⟩, rfl,
      fun inst hmem => hbetween inst (hmem.resolve_left List.not_mem_nil),
      _, _, rfl, rfl, rfl, rfl, rfl⟩
  exact ⟨profile, binding, _, hprofile, hbinding, hlen, List.getElem?_eq_getElem _,
    congrArg (·.callee) hentry.site, (hentry.seconds receiveInterval rfl htimes).trans rfl⟩

end FlowProfile
