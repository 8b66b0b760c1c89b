import FlowProfile.Proofs.Profile.Additive
import FlowProfile.Proofs.Profile.CommProfile
import FlowProfile.Proofs.Profile.EdgeProfile

/-!
# A call runs as often as its block

In profiles of runs whose calls and edges were both counted, the calls of a site are the executions
of its block, which are told by the edges alone. The sum of such profiles is one too, though calls
are saturated once and executions twice, in every edge and in every block. So nothing is lost if
only the bytes of the calls are kept.
-/

namespace FlowProfile

/-! ### Calls of one profile -/

/-- The calls that are counted at a site, zero without counters. -/
def CommCounter.callsAt (i : ℕ) (counters : Option (List CommCounter)) : UInt64 :=
  ((counters.bind (·[i]?)).map CommCounter.calls).getD 0

theorem CommCounter.callsAt_sumSlots (i : ℕ) {xs ys : Option (List CommCounter)}
    (hfit : Fitting xs ys) :
    callsAt i (sumSlots add xs ys) = Count.saturatingAdd (callsAt i xs) (callsAt i ys) := by
  cases xs with
  | none => simp [callsAt]
  | some xs =>
      cases ys with
      | none => simp [callsAt]
      | some ys =>
          have hlen : xs.length = ys.length := hfit xs rfl ys rfl
          rcases Nat.lt_or_ge i xs.length with hi | hi
          · have hi' : i < ys.length := hlen ▸ hi
            simp [callsAt, add, hi, hi']
          · have hi' : ys.length ≤ i := hlen ▸ hi
            simp [callsAt, hi, hi']

namespace Profile

/-- Calls and edges are both counted, or neither, and every site has as many calls as its block has
executions. -/
structure CallsByBlock (p : Program) (profile : Profile) : Prop where
  fits : profile.Fits p
  isSome_eq : profile.comm.isSome = profile.edgeCounts.isSome
  legacy : profile.legacyComm = none
  calls : ∀ (i : ℕ) (site : Comm.PayloadSite), p.payloadSites[i]? = some site →
    CommCounter.callsAt i profile.comm =
      p.countIn Function.ofEdgeCounts Function.slots site.function site.block profile.edgeCounts

variable {p : Program} {a b profile : Profile}

theorem callsByBlock_empty (p : Program) : CallsByBlock p empty where
  fits := fits_empty p
  isSome_eq := rfl
  legacy := rfl
  calls _ _ _ := rfl

theorem CallsByBlock.sum (ha : a.CallsByBlock p) (hb : b.CallsByBlock p) :
    (a.sum b).CallsByBlock p := by
  obtain ⟨hedges, -, -, -, -, hcomm⟩ := agrees_iff.mp (ha.fits.agrees hb.fits)
  constructor
  · exact ha.fits.sum hb.fits
  · simp only [Profile.sum, Option.isSome_merge, ha.isSome_eq, hb.isSome_eq]
  · exact sumSlots_eq_none_iff.mpr ⟨ha.legacy, hb.legacy⟩
  · intro i site hsite
    simp only [Profile.sum]
    rw [CommCounter.callsAt_sumSlots i hcomm, ha.calls i site hsite, hb.calls i site hsite,
      countIn_sumSlots Function.additive_ofEdgeCounts _ hedges]

theorem callsByBlock_total {ps : List Profile} (h : ∀ part ∈ ps, part.CallsByBlock p) :
    (total ps).CallsByBlock p := by
  have hfold : ∀ a : Profile, a.CallsByBlock p → (ps.foldl Profile.sum a).CallsByBlock p := by
    induction ps with
    | nil => exact fun a ha => ha
    | cons part ps ih =>
        rw [List.forall_mem_cons] at h
        exact fun a ha => ih h.2 (a.sum part) (ha.sum h.1)
  exact hfold empty (callsByBlock_empty p)

/-- Only the bytes of the calls are left. -/
def asLegacy (profile : Profile) : Profile :=
  { profile with comm := none, legacyComm := profile.comm.map (·.map CommCounter.bytes) }

theorem Fits.asLegacy (h : profile.Fits p) : profile.asLegacy.Fits p where
  edges := h.edges
  blocks := h.blocks
  comm := by simp [Profile.asLegacy]
  legacy := by simpa [Profile.asLegacy] using h.comm
  seconds := h.seconds
  weights := h.weights

end Profile

/-- Every call runs as often as the block around it. -/
def Binding.CallsByBlock (binding : Binding) : Prop :=
  ∀ call ∈ binding.trapped,
    call.calls = binding.executionCount call.site.function call.site.block ∧
      call.calls = binding.blockFrequency call

namespace Profile

variable {p : Program} {profile : Profile}

/-- The calls of a counter, as the edges alone tell them. -/
theorem CallsByBlock.calls_of_mem (h : profile.CallsByBlock p) {counters : List CommCounter}
    (hcomm : profile.comm = some counters) {functions : List FunctionCounts}
    (hfunctions : bindCounts p profile = .ok functions) {x : (Comm.PayloadSite × CommCounter) × ℕ}
    (hx : x ∈ (p.payloadSites.zip counters).zipIdx) :
    x.1.2.calls = executionsIn functions x.1.1.function x.1.1.block := by
  obtain ⟨⟨site, c⟩, i⟩ := x
  obtain ⟨hsite, hc⟩ := List.getElem?_zip_eq_some.mp (List.mk_mem_zipIdx_iff_getElem?.mp hx)
  have hedges : profile.edgeCounts.isSome = true := by
    rw [← h.isSome_eq, hcomm]
    rfl
  have hcalls : CommCounter.callsAt i profile.comm = c.calls := by
    simp [CommCounter.callsAt, hcomm, hc]
  rw [executionsIn_of_bindCounts hfunctions, if_pos hedges, ← h.calls i site hsite, hcalls]

/-- Once it is bound, such a profile tells each call and its block alike, and nothing but the
format changes without the calls. -/
theorem CallsByBlock.bind (h : profile.CallsByBlock p) (hp : p.IsValid) :
    ∃ binding legacy, profile.bind p = .ok binding ∧ profile.asLegacy.bind p = .ok legacy ∧
      binding.CallsByBlock ∧
      legacy.trapped = binding.trapped.map fun call => { call with format := .legacy } := by
  obtain ⟨binding, hbinding⟩ := bind_fits hp h.fits
  obtain ⟨legacy, hlegacy⟩ := bind_fits hp h.fits.asLegacy
  refine ⟨binding, legacy, hbinding, hlegacy, ?_⟩
  obtain ⟨functions, trapped, _, hfunctions, -, htrapped, -, rfl⟩ := bind_eq_ok_iff.mp hbinding
  obtain ⟨functions', trapped', _, hfunctions', -, htrapped', -, rfl⟩ := bind_eq_ok_iff.mp hlegacy
  -- the counts of blocks come from the edges, which both profiles have
  obtain rfl : functions = functions' := Except.ok.inj (hfunctions.symm.trans hfunctions')
  cases hcomm : profile.comm with
  | none =>
      obtain rfl : [] = trapped := by simpa [bindPayloads, hcomm, h.legacy] using htrapped
      obtain rfl : [] = trapped' := by simpa [bindPayloads, asLegacy, hcomm] using htrapped'
      exact ⟨fun _ hmem => absurd hmem List.not_mem_nil, rfl⟩
  | some counters =>
      obtain ⟨hlen, rfl⟩ := (bindPayloads_full hcomm).mp htrapped
      have hbytes : profile.asLegacy.legacyComm = some (counters.map CommCounter.bytes) := by
        simp [asLegacy, hcomm]
      obtain ⟨-, rfl⟩ := (bindPayloads_legacy rfl hbytes).mp htrapped'
      constructor
      · intro call hmem
        obtain ⟨x, hx, rfl⟩ := List.mem_map.mp hmem
        have hblock := h.calls_of_mem hcomm hfunctions hx
        refine ⟨hblock, ?_⟩
        simpa [Binding.blockFrequency, Binding.executionCount] using fun _ => hblock
      · rw [List.zip_map_right, List.zipIdx_map, List.map_map, List.map_map]
        refine List.map_congr_left fun x hx => ?_
        simp [h.calls_of_mem hcomm hfunctions hx]

end Profile

/-! ### Calls and blocks of one run -/

namespace Program.Traps

variable {σ : Type} {p q : Program} {counters : String} {slot : ℕ} {s : Comm.PayloadSite}
  {own : List Inst}

/-- Nothing but the trap of the site touches its slots. -/
theorem eq_of_touches (h : q.Traps counters slot s own) {inst : Inst} (hinst : q.HasInst inst)
    (htouches : inst.touches counters slot = true) :
    inst = .accumulate counters slot s.count s.datatype := by
  obtain ⟨block, hb, call, between, after, hsuffix, -⟩ := h.place
  obtain ⟨function, b, block', hb', hmem⟩ := hinst
  obtain ⟨before, rest, hsplit⟩ := List.append_of_mem hmem
  have hin : Frame.IsIn q ⟨s.function, s.block, call ::
      (between ++ .accumulate counters slot s.count s.datatype :: after)⟩ := ⟨block, hb, hsuffix⟩
  have hother : Frame.IsIn q ⟨function, b, inst :: rest⟩ := ⟨block', hb', before, hsplit.symm⟩
  have hframe := (h.countsAt hin).only function b inst rest hother htouches
  exact (List.cons.inj (Frame.mk.inj hframe).2.2).1.symm

theorem measures_calls (h : q.Traps counters slot s own) (host : Host σ) :
    Measures q host (Inst.touches counters slot) fun m => m.counters.count counters slot := by
  intro inst hinst m depth m' hm
  by_cases htouches : inst.touches counters slot = true
  · obtain rfl := h.eq_of_touches hinst htouches
    rw [if_pos htouches]
    exact (Machine.count_of_accumulate hm).1
  · rw [if_neg htouches]
    exact ((Machine.executes_of_next? hm).count_eq (Bool.eq_false_iff.mpr htouches)).1

/-- The calls of a site are counted as often as its block was executed. -/
theorem count_eq_executions {host : Host σ} {state : σ} {limit : ℕ} {args : List String}
    {m : Machine σ} {records : List Record} (h : q.Traps counters slot s own)
    (hinit : (Counters.initial q).count counters slot = 0)
    (hrun : q.run host state limit args = (m, .ok records)) :
    m.counters.count counters slot =
      executions (q.visits host state limit) s.function s.block := by
  obtain ⟨block, hb, -⟩ := h.place
  have hmeasure := measure_run (h.measures_calls host) hrun
  have hstart : (Machine.initial q state).counters.count counters slot = 0 := hinit
  rw [hmeasure, hstart, Nat.zero_add]
  exact sum_occurrences hb (fun _ _ _ => h.once.countP_eq) _

/-- The block of the site is one of the plain program, since the call stands there. -/
theorem exists_block (h : q.Traps counters slot s (p.fromSite s)) :
    ∃ block, p.block? s.function s.block = some block := by
  obtain ⟨_, -, call, between, after, -, hcall, -, hown⟩ := h.place
  cases hb : p.block? s.function s.block with
  | some block => exact ⟨block, rfl⟩
  | none =>
      rw [Program.fromSite, hb, List.filter_cons_of_pos hcall] at hown
      cases hown

end Program.Traps

namespace Profile

variable {p : Program} {counters : List CommCounter} {counts : List UInt64}

/-- Calls and edges, and nothing else. -/
def ofCounters (counters : List CommCounter) (counts : List UInt64) : Profile :=
  { empty with comm := some counters, edgeCounts := some counts }

/-- Records whose only counters of calls are all the same, and their only counters of edges too,
and equally many. -/
theorem callsByBlock_ofRecords {records : List Record} {n : ℕ}
    (hone : (ofCounters counters counts).CallsByBlock p)
    (hfits : ∀ record ∈ records, record.Fits p)
    (hlegacy : ∀ record ∈ records, record.profile.legacyComm = none)
    (hcomm : ((records.map Record.profile).map Profile.comm).reduceOption =
      List.replicate n counters)
    (hedges : ((records.map Record.profile).map Profile.edgeCounts).reduceOption =
      List.replicate n counts) :
    ∃ profile, ofRecords records = .ok profile ∧ profile.CallsByBlock p := by
  obtain ⟨profile, hprofile, hfit⟩ := ofRecords_fits hfits
  obtain ⟨-, rfl⟩ := ofRecords_eq_ok_iff.mp hprofile
  have hall : (total (List.replicate n (ofCounters counters counts))).CallsByBlock p := by
    refine callsByBlock_total fun part hpart => ?_
    rw [List.eq_of_mem_replicate hpart]
    exact hone
  have hcommSum : (total (records.map Record.profile)).comm =
      (total (List.replicate n (ofCounters counters counts))).comm := by
    rw [total_slots Profile.comm (fun _ _ => rfl) rfl,
      total_slots Profile.comm (fun _ _ => rfl) rfl, hcomm]
    simp [ofCounters, List.reduceOption]
  have hedgesSum : (total (records.map Record.profile)).edgeCounts =
      (total (List.replicate n (ofCounters counters counts))).edgeCounts := by
    rw [total_slots Profile.edgeCounts (fun _ _ => rfl) rfl,
      total_slots Profile.edgeCounts (fun _ _ => rfl) rfl, hedges]
    simp [ofCounters, List.reduceOption]
  have hnone : ((records.map Record.profile).map Profile.legacyComm).reduceOption = [] := by
    simpa [List.reduceOption, List.filterMap_eq_nil_iff] using hlegacy
  refine ⟨_, hprofile, hfit, ?_, ?_, ?_⟩
  · rw [hcommSum, hedgesSum, hall.isSome_eq]
  · rw [total_slots Profile.legacyComm (fun _ _ => rfl) rfl, hnone]
    rfl
  · rw [hcommSum, hedgesSum]
    exact hall.calls

end Profile

/-- Counts of edges that bind to those of a run tell the executions of its blocks. -/
theorem Program.toNat_countIn {p : Program} {vs : List Visit} {counts : List UInt64}
    (hbound : ∀ binding : Binding, binding.BoundEdges p counts → binding.CountsRun p vs) {i : ℕ}
    {b : BlockId} {block : Block} (hb : p.block? i b = some block) :
    (p.countIn Function.ofEdgeCounts Function.slots i b (some counts)).toNat =
      executions vs i b := by
  obtain ⟨f, hf, hb⟩ := block?_eq_some_iff.mp hb
  have hlt : b < f.blocks.length := (List.getElem?_eq_some_iff.mp hb).1
  have hdef : f.isDeclaration = false := by
    rw [Function.isDeclaration, List.isEmpty_eq_false_iff]
    exact List.ne_nil_of_length_pos (Nat.zero_lt_of_lt hlt)
  let binding : Binding := ⟨p, .empty, p.functions.zipWith Function.ofEdgeCounts
    (cut (p.functions.map Function.slots) counts), false, none, [], []⟩
  exact (hbound binding rfl i f hf hdef).2.2 b hlt

namespace Instrumenter

variable {σ : Type} {ins : Instrumenter} {p q : Program} {host : Host σ} {state : σ}
  {limit : UInt64} {args : List String} {m : Machine σ} {records : List Record} {main : ℕ}

/-- Without its entry function a program is left as it is, and its runs record nothing. -/
theorem records_of_missing_entry (hp : p.IsPlain) (hins : ins.instrument p = .ok q)
    (hmain : p.functionIndex? ins.entry = none)
    (hrun : q.run host state limit.toNat args = (m, .ok records)) : records = [] := by
  simp only [instrument, hmain, Outcome.bind_eq_ok_iff, Outcome.pure_eq_ok_iff] at hins
  obtain ⟨-, -, rfl⟩ := hins
  have hgrows : p.Grows (fun _ => True) (fun _ => False) p := .refl p
  have hhandlers : m.handlers = [] := by
    refine List.eq_nil_iff_forall_not_mem.mpr fun handler hmem => ?_
    obtain ⟨_, hnever, -⟩ := (hgrows.registers hp.isUninstrumented).handlers_run hrun handler hmem
    exact hnever
  obtain ⟨-, -, -, hwritten⟩ := Program.run_eq_ok_iff.mp hrun
  rcases Machine.records_eq_ok_iff.mp hwritten with ⟨-, hnil⟩ | ⟨hsome, -⟩
  · exact hnil
  · exact absurd hhandlers hsome

/-- No strategy writes bytes without their calls. -/
theorem legacyComm_of_run (hp : p.IsPlain) (hins : ins.instrument p = .ok q)
    (hrun : q.run host state limit.toNat args = (m, .ok records)) :
    ∀ record ∈ records, record.profile.legacyComm = none := by
  intro record hmem
  obtain ⟨-, used, hgrows, -⟩ := instrument_grows hp.isOriginal hins
  rcases (hgrows.registers hp.isUninstrumented).of_mem_records hrun hmem with rfl | ⟨s, -, hrecord⟩
  · rfl
  · obtain ⟨words, ranks, rfl⟩ := Counters.exists_of_record hrecord
    cases s <;> rfl

/-- What the counters of edges and of calls hold at the end of a run: every site has as many calls
as its block has executions. -/
theorem callsByBlock_ofCounters {counts : List UInt64} {counters : List CommCounter}
    (hp : p.IsPlain) (hins : ins.instrument p = .ok q) (hs : .comm ∈ ins.strategies)
    (hmain : p.functionIndex? ins.entry = some main)
    (hrun : q.run host state limit.toNat args = (m, .ok records))
    (hcountsLen : counts.length = p.edgeSlots)
    (hbound : ∀ binding : Binding, binding.BoundEdges p counts →
      binding.CountsRun p (q.visits host state limit.toNat))
    (hcountersLen : counters.length = p.payloadSites.length)
    (hcounters : ∀ i, i < p.payloadSites.length → ∃ c, counters[i]? = some c ∧
      c.calls.toNat = m.counters.count payloadCounters (2 * i)) :
    (Profile.ofCounters counters counts).CallsByBlock p := by
  obtain ⟨hinit, htraps⟩ := traps_of_instrument hp hins hs hmain
  refine ⟨?_, rfl, rfl, fun i site hsite => ?_⟩
  · constructor <;> simp [Profile.ofCounters, Profile.empty, hcountsLen, hcountersLen]
  · have htrap := htraps i site hsite
    obtain ⟨c, hc, hcalls⟩ := hcounters i (List.getElem?_eq_some_iff.mp hsite).1
    obtain ⟨block, hb⟩ := htrap.exists_block
    have hcallsAt : CommCounter.callsAt i (some counters) = c.calls := by
      simp [CommCounter.callsAt, hc]
    apply UInt64.toNat_inj.mp
    calc (CommCounter.callsAt i (some counters)).toNat
        = m.counters.count payloadCounters (2 * i) := by rw [hcallsAt, hcalls]
      _ = executions (q.visits host state limit.toNat) site.function site.block :=
          htrap.count_eq_executions (hinit _) hrun
      _ = (p.countIn Function.ofEdgeCounts Function.slots site.function site.block
            (some counts)).toNat := (Program.toNat_countIn hbound hb).symm

/-- The records of a run add up to a profile in which calls and blocks agree, however often the
entry function was entered. -/
theorem callsByBlock_of_run (hp : p.IsPlain) (hins : ins.instrument p = .ok q)
    (hedges : .edge ∈ ins.strategies ∨ .edgeRank ∈ ins.strategies) (hs : .comm ∈ ins.strategies)
    (hrun : q.run host state limit.toNat args = (m, .ok records)) :
    ∃ profile, Profile.ofRecords records = .ok profile ∧ profile.CallsByBlock p := by
  cases hmain : p.functionIndex? ins.entry with
  | none =>
      obtain rfl := records_of_missing_entry hp hins hmain hrun
      exact ⟨.empty, rfl, Profile.callsByBlock_empty p⟩
  | some main =>
      obtain ⟨counts, hcountsLen, hcounts, hbound⟩ := edges_of_run hp hins hedges hmain hrun
      obtain ⟨counters, hcountersLen, hcounters, hslots⟩ := comm_of_run hp hins hs hmain hrun
      have hlegacy := legacyComm_of_run hp hins hrun
      refine Profile.callsByBlock_ofRecords ?_
        (fun record hr => (record_fits hp.isUninstrumented hins hrun hr).1) hlegacy hcounters
        hcounts
      refine callsByBlock_ofCounters hp hins hs hmain hrun hcountsLen hbound hcountersLen
        fun i hi => ?_
      obtain ⟨c, hc, hcalls, -⟩ := hslots i hi
      exact ⟨c, hc, hcalls⟩

end Instrumenter

/-! ### Merged profiles of runs -/

namespace Program

/-- The records of a run that comes to its end. -/
def Completes (q : Program) (records : List Record) : Prop :=
  ∃ (σ : Type) (host : Host σ) (state : σ) (limit : UInt64) (args : List String),
    (q.run host state limit.toNat args).2 = .ok records

/-- The profiles of any number of runs, merged in any way. -/
inductive Recorded (q : Program) : Profile → Prop where
  | none : Recorded q .empty
  | run {records : List Record} {profile : Profile} (hrun : q.Completes records)
      (hprofile : Profile.ofRecords records = .ok profile) : Recorded q profile
  | merge {a b profile : Profile} (ha : Recorded q a) (hb : Recorded q b)
      (hprofile : a.merge b = .ok profile) : Recorded q profile

end Program

namespace Instrumenter

variable {ins : Instrumenter} {p q : Program}

theorem callsByBlock_of_completes (hp : p.IsPlain) (hins : ins.instrument p = .ok q)
    (hedges : .edge ∈ ins.strategies ∨ .edgeRank ∈ ins.strategies) (hs : .comm ∈ ins.strategies)
    {records : List Record} (h : q.Completes records) :
    ∃ profile, Profile.ofRecords records = .ok profile ∧ profile.CallsByBlock p := by
  obtain ⟨σ, host, state, limit, args, hrun⟩ := h
  have hm : q.run host state limit.toNat args = (_, .ok records) := Prod.ext rfl hrun
  exact callsByBlock_of_run hp hins hedges hs hm

/-- Each run adds a profile in which calls and blocks agree, and merging keeps it so. -/
theorem callsByBlock_of_recorded (hp : p.IsPlain) (hins : ins.instrument p = .ok q)
    (hedges : .edge ∈ ins.strategies ∨ .edgeRank ∈ ins.strategies) (hs : .comm ∈ ins.strategies)
    {profile : Profile} (h : q.Recorded profile) : profile.CallsByBlock p := by
  induction h with
  | none => exact Profile.callsByBlock_empty p
  | run hrun hprofile =>
      obtain ⟨profile', hprofile', hcalls⟩ := callsByBlock_of_completes hp hins hedges hs hrun
      obtain rfl := Except.ok.inj (hprofile.symm.trans hprofile')
      exact hcalls
  | merge _ _ hprofile iha ihb =>
      obtain ⟨-, rfl⟩ := Profile.merge_eq_ok_iff.mp hprofile
      exact iha.sum ihb

/-- A trapped call runs exactly as often as its block. If calls and edges are both counted, the
records of every run add up, the profiles of all runs can be merged, and whatever comes out can be
bound to the plain program. There every trapped call has as many calls as the block around it has
executions, and the bytes alone give the same calls. -/
theorem calls_eq_executionCount (hp : p.IsPlain) (hins : ins.instrument p = .ok q)
    (hedges : .edge ∈ ins.strategies ∨ .edgeRank ∈ ins.strategies)
    (hs : .comm ∈ ins.strategies) :
    (∀ records, q.Completes records → ∃ profile, Profile.ofRecords records = .ok profile) ∧
      (∀ a b, q.Recorded a → q.Recorded b → ∃ profile, a.merge b = .ok profile) ∧
      ∀ profile, q.Recorded profile → ∃ binding legacy,
        profile.bind p = .ok binding ∧ profile.asLegacy.bind p = .ok legacy ∧
        binding.CallsByBlock ∧
        legacy.trapped = binding.trapped.map fun call => { call with format := .legacy } := by
  refine ⟨fun records hrun => ?_, fun a b ha hb => ?_, fun profile hprofile => ?_⟩
  · obtain ⟨profile, hprofile, -⟩ := callsByBlock_of_completes hp hins hedges hs hrun
    exact ⟨profile, hprofile⟩
  · have hfits := (callsByBlock_of_recorded hp hins hedges hs ha).fits
    have hfits' := (callsByBlock_of_recorded hp hins hedges hs hb).fits
    exact ⟨a.sum b, Profile.merge_eq_ok_iff.mpr ⟨hfits.agrees hfits', rfl⟩⟩
  · exact (callsByBlock_of_recorded hp hins hedges hs hprofile).bind
      (instrument_grows hp.isOriginal hins).1

end Instrumenter

/-- Two runs with three messages each, and one more call in the block behind the loop. -/
theorem calls_eq_executionCount_sendGrowing :
    ∃ profile binding legacy, sendGrowingTrapped.Recorded profile ∧
      profile.edgeCounts = some [2, 2, 4, 2] ∧ profile.bind sendGrowing = .ok binding ∧
      profile.asLegacy.bind sendGrowing = .ok legacy ∧
      binding.trapped.map (·.calls) = [6, 2] ∧
      binding.CallsByBlock ∧
      legacy.trapped = binding.trapped.map fun call => { call with format := .legacy } := by
  have hins : Instrumenter.instrument ⟨[.edge, .comm], "main", []⟩ sendGrowing =
      .ok sendGrowingTrapped := rfl
  obtain ⟨hrecords, hmerge, hbound⟩ :=
    Instrumenter.calls_eq_executionCount (by decide) hins (.inl (by decide)) (by decide)
  have hrun : sendGrowingTrapped.Completes
      [.arguments ["grow"], .comm [⟨3, 48⟩, ⟨1, 0⟩], .edges [1, 1, 2, 1] []] :=
    ⟨_, MpiProcess.host, .start 0 1 .zero, 100, ["grow"], rfl⟩
  obtain ⟨once, honce⟩ := hrecords _ hrun
  have hfirst : sendGrowingTrapped.Recorded once := .run hrun honce
  obtain ⟨twice, htwice⟩ := hmerge once once hfirst hfirst
  have hboth : sendGrowingTrapped.Recorded twice := .merge hfirst hfirst htwice
  obtain ⟨binding, legacy, hbinding, hlegacy, hcalls, hsame⟩ := hbound twice hboth
  obtain rfl := Except.ok.inj (honce.symm.trans rfl)
  obtain rfl := Except.ok.inj (htwice.symm.trans rfl)
  obtain rfl := Except.ok.inj (hbinding.symm.trans rfl)
  exact ⟨_, _, legacy, hboth, rfl, rfl, hlegacy, rfl, hcalls, hsame⟩

end FlowProfile
