import FlowProfile.Proofs.Exec.Intervals
import FlowProfile.Proofs.Exec.Quiet

/-!
# Times are exact

A run of an instrumented program that returns has measured every execution of every recognised
call, whatever functions these calls entered, and added each time to the slot of its site. But a
run does not return once a measured call has come to another one that is measured.
-/

namespace FlowProfile

namespace Program

variable {σ : Type} {p q : Program} {v : Interval}

theorem Times.standsIn (h : p.Times q v) : v.StandsIn q where
  start := h.stands
  timeless inst hmem := by
    rcases List.mem_append.mp hmem with hlead | hmem
    · exact (h.added inst (.inl hlead)).2
    · rcases List.mem_cons.mp hmem with rfl | hbetween
      · exact Inst.timeless_of_isOriginal h.original
      · exact (h.added inst (.inr hbetween)).2

/-- A run that returns has stopped the timer as often as it made the call. -/
theorem Times.length_elapsed {host : Host σ} {state : σ} {limit : ℕ} {args : List String}
    {m : Machine σ} {records : List Record} (h : p.Times q v)
    (hrun : q.run host state limit args = (m, .ok records)) :
    (v.elapsed host (q.trace host state limit)).length =
      (q.trace host state limit).countP (·.frame = v.calling) := by
  have hcalling : (q.trace host state limit).countP (·.frame = v.start) =
      (q.trace host state limit).countP (·.frame = v.calling) :=
    countP_trace_append hrun (.timerStart :: v.lead) h.stands
  have hstop : (q.trace host state limit).countP (·.frame = v.calling) =
      (q.trace host state limit).countP (·.frame = v.stop) :=
    countP_trace_append hrun (v.call :: v.between) h.calling_isIn
  rw [Interval.elapsed, List.length_zipWith, Interval.stops, Interval.starts, length_whenever,
    length_whenever, ← hstop, hcalling, min_self]

end Program

/-- The slot at the end of a run that returns. -/
theorem Interval.IsExact.slot_of_run {σ : Type} {q : Program} {v : Interval} {host : Host σ}
    {state : σ} {limit : ℕ} {args : List String} {m : Machine σ} {records : List Record}
    (h : v.IsExact host (q.trace host state limit))
    (hrun : q.run host state limit args = (m, .ok records)) :
    m.counters.f64Slot timeCounters v.slot =
      .ok (.total (v.elapsed host (q.trace host state limit))) := by
  obtain ⟨main, entry, vs, n, d, -, -, htrace, rfl, hrest, -⟩ := Program.exists_trace_eq hrun
  have hstart : d.frame ≠ v.start := by
    intro heq
    rw [heq] at hrest
    cases hrest
  have hstop : d.frame ≠ v.stop := by
    intro heq
    rw [heq] at hrest
    cases hrest
  rw [h.summed _ d [] htrace, htrace, Interval.elapsed, Interval.elapsed,
    Interval.starts_append_singleton, Interval.stops_append_singleton, if_neg hstart,
    if_neg hstop, List.append_nil, List.append_nil]

namespace Instrumenter

variable {σ : Type} {ins : Instrumenter} {p q : Program} {main : ℕ}

/-- Measuring is exact unless a measured call comes to another one that is measured, and a run in
which this happens does not return. Every site has an interval of its own, and the timer is stopped
nowhere else. Each stop finds the time of its own start, and at the end the slot of a site holds the
sum of as many times as the run executed its call. -/
theorem times_exact (hp : p.IsOriginal) (hins : ins.instrument p = .ok q)
    (hs : .time ∈ ins.strategies) (hmain : p.functionIndex? ins.entry = some main) (host : Host σ)
    (state : σ) (limit : ℕ) :
    (∀ i < p.timedSites.length, ∃ v, v.slot = i ∧ p.Times q v) ∧
    (∀ f counters slot rest, Frame.IsIn q f → f.rest = .timerStop counters slot :: rest →
      ∃ v, p.Times q v ∧ f = v.stop) ∧
    (∀ v, p.Times q v → q.MeasuresApart host state limit →
      v.IsExact host (q.trace host state limit)) ∧
    ∀ args m records, q.run host state limit args = (m, .ok records) →
      q.MeasuresApart host state limit ∧ ∀ v, p.Times q v →
        (v.elapsed host (q.trace host state limit)).length =
          (q.trace host state limit).countP (·.frame = v.calling) ∧
        m.counters.f64Slot timeCounters v.slot =
          .ok (.total (v.elapsed host (q.trace host state limit))) := by
  obtain ⟨hvalid, -, -, happly⟩ := instrument_eq_ok hmain hins
  have hq := applyAll_alternating hp happly
  have hexact : ∀ v, p.Times q v → q.MeasuresApart host state limit →
      v.IsExact host (q.trace host state limit) := by
    intro v htimes hapart
    obtain ⟨s, block, hsite, -⟩ := htimes.site
    refine hapart.isExact hq htimes.standsIn ?_ ?_
    · intro f inst rest hf hrest hadds
      obtain ⟨-, honce⟩ := applyAll_times hvalid hp hs hsite happly
      exact honce.frame_eq hf htimes.stop_isIn hrest rfl hadds (by simp [Inst.addsTo])
    · obtain ⟨-, -, hall⟩ :=
        strategies_grow (List.length_map ..) p.copies_true (fun _ _ => trivial) happly
      obtain ⟨-, len, hdecl, hlen⟩ := hall .time hs (.time timeCounters) List.mem_cons_self
      refine hdecl.f64Slot_initial rfl ?_
      rw [hlen.resolve_left id]
      exact (List.getElem?_eq_some_iff.mp hsite).1
  refine ⟨fun i hi => ?_, fun f counters slot rest hf hrest => ?_, hexact, ?_⟩
  · exact (applyAll_times hvalid hp hs (List.getElem?_eq_getElem hi) happly).1
  · exact applyAll_stops hvalid hp happly hf hrest
  · intro args m records hrun
    have hapart := Program.measuresApart_of_run hq hrun
    refine ⟨hapart, fun v htimes => ?_⟩
    exact ⟨htimes.length_elapsed hrun, (hexact v htimes hapart).slot_of_run hrun⟩

end Instrumenter

/-- A program that has a barrier of its own, which communicates with nobody, and then sends. -/
def wrapsBarrier : Program where
  functions := [
    ⟨"main", [⟨"entry", [.call (.direct "MPI_Barrier") [],
      .call (.direct "MPI_Send") [.const 0, .const 4, .const 8]], .ret⟩]⟩,
    ⟨"MPI_Barrier", [⟨"body", [.op "mov" (some "x") [.const 1]], .ret⟩]⟩]
  globals := []

def wrapsBarrierTimed : Program where
  functions := [
    ⟨"main", [⟨"entry", [Strategy.time.registration, .timerStart,
      .call (.direct "MPI_Barrier") [], .timerStop timeCounters 0, .timerStart,
      .call (.direct "MPI_Send") [.const 0, .const 4, .const 8],
      .timerStop timeCounters 1], .ret⟩]⟩,
    ⟨"MPI_Barrier", [⟨"body", [.op "mov" (some "x") [.const 1]], .ret⟩]⟩]
  globals := [⟨timeCounters, .f64, 2, 0⟩, ⟨"__commprof_time_ranks", .i32, 1, -1⟩]

/-- The call of the barrier, between the start and the stop of the timer. -/
def barrierInterval : Interval where
  function := 0
  block := 0
  lead := []
  call := .call (.direct "MPI_Barrier") []
  between := []
  slot := 0
  after := [.timerStart, .call (.direct "MPI_Send") [.const 0, .const 4, .const 8],
    .timerStop timeCounters 1]

theorem times_exact_wrapsBarrier :
    ∃ m records,
      wrapsBarrierTimed.run MpiProcess.host (.start 0 1 .zero) 100 [] = (m, .ok records) ∧
      barrierInterval.IsExact MpiProcess.host
        (wrapsBarrierTimed.trace MpiProcess.host (.start 0 1 .zero) 100) ∧
      (barrierInterval.elapsed MpiProcess.host
        (wrapsBarrierTimed.trace MpiProcess.host (.start 0 1 .zero) 100)).length = 1 ∧
      m.counters.f64Slot timeCounters 0 = .ok (.total (barrierInterval.elapsed MpiProcess.host
        (wrapsBarrierTimed.trace MpiProcess.host (.start 0 1 .zero) 100))) := by
  have hins : Instrumenter.instrument ⟨[.time], "main", []⟩ wrapsBarrier =
      .ok wrapsBarrierTimed := rfl
  have hmain : wrapsBarrier.functionIndex? "main" = some 0 := rfl
  obtain ⟨-, -, hexact, hreturns⟩ := Instrumenter.times_exact (by decide) hins (by decide)
    hmain MpiProcess.host (.start 0 1 .zero) 100
  have htimes : wrapsBarrier.Times wrapsBarrierTimed barrierInterval :=
    ⟨⟨_, rfl, [Strategy.time.registration], rfl⟩, rfl, by simp [barrierInterval],
      _, _, rfl, rfl, rfl, rfl, rfl⟩
  obtain ⟨m, records, hrun⟩ : ∃ m records,
      wrapsBarrierTimed.run MpiProcess.host (.start 0 1 .zero) 100 [] = (m, .ok records) :=
    ⟨_, _, rfl⟩
  obtain ⟨hapart, htotals⟩ := hreturns [] m records hrun
  obtain ⟨hlength, htotal⟩ := htotals barrierInterval htimes
  exact ⟨m, records, hrun, hexact barrierInterval htimes hapart, hlength.trans rfl, htotal⟩

/-- A program whose barrier sends. -/
def sendsInBarrier : Program where
  functions := [
    ⟨"main", [⟨"entry", [.call (.direct "MPI_Barrier") []], .ret⟩]⟩,
    ⟨"MPI_Barrier", [⟨"body", [.call (.direct "MPI_Send") [.const 0, .const 4, .const 8]], .ret⟩]⟩]
  globals := []

def sendsInBarrierTimed : Program where
  functions := [
    ⟨"main", [⟨"entry", [Strategy.time.registration, .timerStart,
      .call (.direct "MPI_Barrier") [], .timerStop timeCounters 0], .ret⟩]⟩,
    ⟨"MPI_Barrier", [⟨"body", [.timerStart,
      .call (.direct "MPI_Send") [.const 0, .const 4, .const 8],
      .timerStop timeCounters 1], .ret⟩]⟩]
  globals := [⟨timeCounters, .f64, 2, 0⟩, ⟨"__commprof_time_ranks", .i32, 1, -1⟩]

/-- The program returns, and fails when it is measured: the stop behind the call of the barrier
finds no timer. -/
theorem times_not_exact :
    sendsInBarrier.IsPlain ∧
      Instrumenter.instrument ⟨[.time], "main", []⟩ sendsInBarrier = .ok sendsInBarrierTimed ∧
      (sendsInBarrier.run MpiProcess.host (.start 0 1 .zero) 100 []).2 = .ok [] ∧
      (sendsInBarrierTimed.run MpiProcess.host (.start 0 1 .zero) 100 []).2 =
        .error (.error [.inBlock "entry" "main"] .timerNotStarted) := by
  exact ⟨by decide, rfl, rfl, rfl⟩

end FlowProfile
