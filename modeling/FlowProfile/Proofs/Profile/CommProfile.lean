import FlowProfile.Proofs.Instrument.PayloadTraps
import FlowProfile.Proofs.Profile.FreshProfile

/-!
# Profiles of communication are exact

Instrumenting, running, adding up the records and binding the profile to the plain program, one
after another: the binding has an entry for each call that moves data, and tells how often the run
executed the call and how many bytes it moved there.
-/

namespace FlowProfile

/-! ### Counters of one record -/

theorem CommCounter.getElem?_ofWords {words : List UInt64} {i : ℕ} {calls bytes : UInt64}
    (hcalls : words[2 * i]? = some calls) (hbytes : words[2 * i + 1]? = some bytes) :
    (ofWords words)[i]? = some ⟨calls, bytes⟩ := by
  induction i generalizing words with
  | zero =>
      match words with
      | first :: second :: rest =>
          obtain rfl := Option.some.inj hcalls
          obtain rfl := Option.some.inj hbytes
          rfl
      | [] => cases hcalls
      | [_] => cases hbytes
  | succ i ih =>
      match words with
      | first :: second :: rest => exact ih hcalls hbytes
      | [] => cases hcalls
      | [_] => cases hcalls

/-- The record of calls holds what the slots count, two for each site. -/
theorem Strategy.Sized.record_comm {p : Program} {cs : Counters} (h : Strategy.comm.Sized p cs) :
    ∃ counters, cs.record Strategy.comm.handler = .ok (.comm counters) ∧
      counters.length = p.payloadSites.length ∧
      ∀ i, i < p.payloadSites.length → ∃ c, counters[i]? = some c ∧
        c.calls.toNat = cs.count payloadCounters (2 * i) ∧
        c.bytes.toNat = cs.count payloadCounters (2 * i + 1) := by
  obtain ⟨words, ranks, hwords, hlen, hcount, -⟩ := h.words passes_comm (by simp)
  refine ⟨_, Counters.record_handler hwords, CommCounter.length_ofWords hlen, fun i hi => ?_⟩
  have hsize : (Pass.comm payloadCounters).size p.blockCounts p = 2 * p.payloadSites.length := rfl
  obtain ⟨calls, hcalls, hcallsCount⟩ := hcount rfl (2 * i) (by omega)
  obtain ⟨bytes, hbytes, hbytesCount⟩ := hcount rfl (2 * i + 1) (by omega)
  exact ⟨⟨calls, bytes⟩, CommCounter.getElem?_ofWords hcalls hbytes, hcallsCount, hbytesCount⟩

/-! ### Entries of the binding -/

/-- The entries of a binding are the sites of the program, each with its counter. -/
theorem Profile.trapped_of_bind {profile : Profile} {p : Program} {binding : Binding}
    {counters : List CommCounter} (h : profile.bind p = .ok binding)
    (hcomm : profile.comm = some counters) :
    counters.length = p.payloadSites.length ∧
      binding.trapped = (p.payloadSites.zip counters).zipIdx.map fun x =>
        ⟨x.2, x.1.1.toSite, .full, x.1.2.calls, x.1.2.bytes⟩ := by
  obtain ⟨functions, trapped, _, -, -, htrapped, -, rfl⟩ := bind_eq_ok_iff.mp h
  exact (bindPayloads_full hcomm).mp htrapped

/-- In `q` the call of a site of `p`, with what stands behind it in its block: without the added
instructions, they are what `p` has from the site on. -/
structure Program.CallOf (p q : Program) (s : Comm.PayloadSite) (call : Inst) (rest : List Inst) :
    Prop where
  stands : Frame.IsIn q ⟨s.function, s.block, call :: rest⟩
  original : call.isOriginal = true
  own : (call :: rest).filter Inst.isOriginal = p.fromSite s

/-- An entry for a numbered site reports how often the run executed the call, and what the payloads
add up to that it found right behind the call each time, as far as a count can tell. -/
structure TrappedCall.CountsRun {σ : Type} (p q : Program) (trace : List (Config σ))
    (numbered : Comm.PayloadSite × ℕ) (entry : TrappedCall) : Prop where
  index : entry.index = numbered.2
  site : entry.site = numbered.1.toSite
  format : entry.format = .full
  counts : ∃ call rest payloads, p.CallOf q numbered.1 call rest ∧
    entry.calls.toNat =
      trace.countP (·.frame = ⟨numbered.1.function, numbered.1.block, call :: rest⟩) ∧
    (seen ⟨numbered.1.function, numbered.1.block, rest⟩ trace).mapM
      (·.payload numbered.1.count numbered.1.datatype) = .ok payloads ∧
    entry.bytes.toNat = min payloads.sum (2 ^ 64 - 1)

/-- What two slots hold after a run in which they were those of a site. -/
theorem Program.Traps.counts_run {σ : Type} {p q : Program} {host : Host σ} {state : σ} {limit : ℕ}
    {args : List String} {m : Machine σ} {records : List Record} {counters : String} {slot : ℕ}
    {s : Comm.PayloadSite} (h : q.Traps counters slot s (p.fromSite s))
    (hinit : ∀ k, (Counters.initial q).count counters k = 0)
    (hrun : q.run host state limit args = (m, .ok records)) :
    ∃ call rest payloads, p.CallOf q s call rest ∧
      m.counters.count counters slot = (q.trace host state limit).countP
        (·.frame = ⟨s.function, s.block, call :: rest⟩) ∧
      (seen ⟨s.function, s.block, rest⟩ (q.trace host state limit)).mapM
        (·.payload s.count s.datatype) = .ok payloads ∧
      m.counters.count counters (slot + 1) = min payloads.sum (2 ^ 64 - 1) := by
  obtain ⟨block, hb, call, between, after, hsuffix, hcall, hbetween, hown⟩ := h.place
  have hin : Frame.IsIn q ⟨s.function, s.block, call ::
      (between ++ .accumulate counters slot s.count s.datatype :: after)⟩ := ⟨block, hb, hsuffix⟩
  obtain ⟨hcalls, payloads, hpayloads, hbytes⟩ := payloads_run (h.countsAt hin) hinit hrun
  rw [← seen_trace_behind hrun hin.tail hbetween] at hcalls hpayloads
  refine ⟨call, _, payloads, ⟨hin, hcall, hown⟩, ?_, hpayloads, hbytes⟩
  rw [countP_trace_behind hrun hin, hcalls, length_seen]

namespace Instrumenter

variable {σ : Type} {ins : Instrumenter} {p q : Program} {main : ℕ} {records : List Record}

/-- Every site of the plain program is trapped, with two slots that are empty at first. -/
theorem traps_of_instrument (hp : p.IsPlain) (hins : ins.instrument p = .ok q)
    (hs : .comm ∈ ins.strategies) (hmain : p.functionIndex? ins.entry = some main) :
    (∀ k, (Counters.initial q).count payloadCounters k = 0) ∧
      ∀ (i : ℕ) (s : Comm.PayloadSite), p.payloadSites[i]? = some s →
        q.Traps payloadCounters (2 * i) s (p.fromSite s) := by
  obtain ⟨hvalid, -, hone, happly⟩ := instrument_eq_ok hmain hins
  have hpass : .comm payloadCounters ∈ Strategy.comm.passes := by simp [Strategy.passes_comm]
  have hdeclared := (applyAll_declares hvalid hp.isOriginal hone happly hs hpass).1
  exact ⟨hdeclared.count_initial, fun i s hsite => applyAll_traps hvalid hp hs hsite happly⟩

/-- The records of calls are all the same, one for each entry of the entry function, and hold what
the slots do at the end. -/
theorem comm_of_run {host : Host σ} {state : σ} {limit : ℕ} {args : List String} {m : Machine σ}
    (hp : p.IsPlain) (hins : ins.instrument p = .ok q) (hs : .comm ∈ ins.strategies)
    (hmain : p.functionIndex? ins.entry = some main)
    (hrun : q.run host state limit args = (m, .ok records)) :
    ∃ counters, counters.length = p.payloadSites.length ∧
      ((records.map Record.profile).map Profile.comm).reduceOption =
        List.replicate (activations (q.visits host state limit) main) counters ∧
      ∀ i, i < p.payloadSites.length → ∃ c, counters[i]? = some c ∧
        c.calls.toNat = m.counters.count payloadCounters (2 * i) ∧
        c.bytes.toNat = m.counters.count payloadCounters (2 * i + 1) := by
  obtain ⟨counters, hrecord, hlen, hcounts⟩ :=
    (sized_of_run hp.isOriginal hins hs hmain hrun).record_comm
  refine ⟨counters, hlen, ?_, hcounts⟩
  refine parts_of_run hp.isUninstrumented hins hs hmain hrun hrecord rfl (fun _ => rfl) ?_
  intro t _ ht words ranks
  cases t with
  | comm => exact absurd rfl ht
  | _ => rfl

/-- Profiles of communication are exact: the records of a run of the instrumented program that
enters the entry function once can be added up and bound to the plain program, and the binding has
one entry for each site, in order, which reports the calls of the run and their bytes. -/
theorem commProfile_exact (hp : p.IsPlain) (hins : ins.instrument p = .ok q)
    (hs : .comm ∈ ins.strategies) (host : Host σ) (state : σ) (limit : ℕ) (args : List String)
    (hrun : (q.run host state limit args).2 = .ok records)
    (hmain : p.functionIndex? ins.entry = some main)
    (honce : activations (q.visits host state limit) main = 1) :
    ∃ profile binding, Profile.ofRecords records = .ok profile ∧ profile.bind p = .ok binding ∧
      List.Forall₂ (TrappedCall.CountsRun p q (q.trace host state limit))
        p.payloadSites.zipIdx binding.trapped := by
  obtain ⟨m, hm⟩ : ∃ m, q.run host state limit args = (m, .ok records) := ⟨_, Prod.ext rfl hrun⟩
  obtain ⟨profile, binding, hprofile, hbinding⟩ := exists_bound_of_run hp.isUninstrumented hins hm
  -- one of the records alone holds counters of calls
  obtain ⟨counters, -, honly, hcounts⟩ := comm_of_run hp hins hs hmain hm
  rw [honce] at honly
  have hcomm := Profile.ofRecords_only (fun _ _ => rfl) rfl honly hprofile
  obtain ⟨hlen, htrapped⟩ := Profile.trapped_of_bind hbinding hcomm
  obtain ⟨hinit, htraps⟩ := traps_of_instrument hp hins hs hmain
  refine ⟨profile, binding, hprofile, hbinding, ?_⟩
  rw [htrapped, List.forall₂_iff_get]
  refine ⟨by simp [hlen], fun i hi hi' => ?_⟩
  rw [List.length_zipIdx] at hi
  obtain ⟨c, hc, hcalls, hbytes⟩ := hcounts i hi
  obtain ⟨hlt, rfl⟩ := List.getElem?_eq_some_iff.mp hc
  obtain ⟨call, rest, payloads, hcall, hexecuted, hpayloads, hsum⟩ :=
    (htraps i _ (List.getElem?_eq_getElem hi)).counts_run hinit hm
  simp only [List.get_eq_getElem, List.getElem_zipIdx, List.getElem_map, List.getElem_zip,
    Nat.zero_add]
  exact ⟨rfl, rfl, rfl, call, rest, payloads, hcall, hcalls.trans hexecuted, hpayloads,
    hbytes.trans hsum⟩

end Instrumenter

/-- Three messages of growing length, and one whose length is negative. -/
def sendGrowing : Program where
  functions := [
    ⟨"main", [
      ⟨"entry", [], .br 1⟩,
      ⟨"body", [.op "add" (some "i") [.var "i", .const 1],
        .call (.direct "MPI_Send") [.const 0, .var "i", .const 8],
        .op "lt" (some "again") [.var "i", .const 3]], .condBr (.var "again") 1 2⟩,
      ⟨"exit", [.call (.direct "mpi_recv_") [.const 0, .const (-1), .const 8]], .ret⟩]⟩]
  globals := []

def sendGrowingTrapped : Program where
  functions := [
    ⟨"main", [
      ⟨"entry", [Strategy.comm.registration, Strategy.edge.registration,
        .increment "__commprof_edge_counters" 0, .increment "__commprof_edge_counters" 1], .br 1⟩,
      ⟨"body", [.op "add" (some "i") [.var "i", .const 1],
        .call (.direct "MPI_Send") [.const 0, .var "i", .const 8],
        .accumulate "__commprof_comm_counters" 0 (.var "i") (.const 8),
        .op "lt" (some "again") [.var "i", .const 3]], .condBr (.var "again") 3 2⟩,
      ⟨"exit", [.increment "__commprof_edge_counters" 3,
        .call (.direct "mpi_recv_") [.const 0, .const (-1), .const 8],
        .accumulate "__commprof_comm_counters" 2 (.const (-1)) (.const 8)], .ret⟩,
      ⟨"body.body_crit_edge", [.increment "__commprof_edge_counters" 2], .br 1⟩]⟩]
  globals := [⟨"__commprof_edge_counters", .u64, 4, 0⟩, ⟨"__commprof_comm_counters", .u64, 4, 0⟩]

theorem commProfile_sendGrowing :
    ∃ profile binding, Profile.ofRecords [.arguments ["grow"], .comm [⟨3, 48⟩, ⟨1, 0⟩],
        .edges [1, 1, 2, 1] []] = .ok profile ∧ profile.bind sendGrowing = .ok binding ∧
      List.Forall₂ (TrappedCall.CountsRun sendGrowing sendGrowingTrapped
          (sendGrowingTrapped.trace MpiProcess.host (.start 0 1 .zero) 100))
        sendGrowing.payloadSites.zipIdx binding.trapped := by
  have hins : Instrumenter.instrument ⟨[.edge, .comm], "main", []⟩ sendGrowing =
      .ok sendGrowingTrapped := rfl
  have hmain : sendGrowing.functionIndex? "main" = some 0 := rfl
  exact Instrumenter.commProfile_exact (by decide) hins (by decide) MpiProcess.host
    (.start 0 1 .zero) 100 ["grow"] rfl hmain rfl

end FlowProfile
