import FlowProfile.Proofs.Instrument.EdgeSlots
import FlowProfile.Proofs.Price.Computation
import FlowProfile.Proofs.Profile.Additive

/-!
# Ignored functions

A report does not depend on the counters of a function that is ignored. Counters stand in the order
of the program, so each slot belongs to one function: two profiles that have the same kinds of
counters and agree in all slots of other functions come to the same report, or to none.
-/

namespace FlowProfile

/-! ### Owners -/

namespace Program

variable (p : Program)

/-- For each of so many counters of every function the function that they belong to. -/
def ownersOf (size : Function → ℕ) : List ℕ :=
  p.functions.zipIdx.flatMap fun (f, i) => List.replicate (size f) i

/-- The function that each counter of a kind belongs to. -/
def owners : CounterKind → List ℕ
  | .edges => p.ownersOf Function.slots
  | .blocks | .weights => p.ownersOf (·.blocks.length)
  | .comm | .legacyComm => p.payloadSites.map (·.function)
  | .seconds => p.timedSites.map (·.function)

/-- Is it the place of a function with one of the names? -/
def isNamed (names : List String) (function : ℕ) : Bool :=
  (p.functions[function]?).any fun f => f.name ∈ names

variable {p}

theorem getElem?_ownersOf {size : Function → ℕ} {f : Function} {i j : ℕ}
    (hf : p.functions[i]? = some f) (hj : j < size f) :
    (p.ownersOf size)[((p.functions.map size).take i).sum + j]? = some i := by
  have h := congrArg (Option.map Prod.fst) (getElem?_flatMap_range p.functions size (k := 0) hf hj)
  rw [← List.getElem?_map, List.map_flatMap] at h
  simpa [ownersOf, Function.comp_def] using h

theorem isNamed_eq_false {names : List String} {f : Function} {i : ℕ}
    (hf : p.functions[i]? = some f) (hname : f.name ∉ names) : p.isNamed names i = false := by
  simp [isNamed, hf, hname]

end Program

/-! ### Profiles that agree -/

/-- Counters of the same kind, the same in every slot of which the owner is not ignored. -/
structure SameOutside {α : Type} (owners : List ℕ) (ignored : ℕ → Bool)
    (xs ys : Option (List α)) : Prop where
  isSome_eq : xs.isSome = ys.isSome
  slots : ∀ x ∈ xs, ∀ y ∈ ys, ∀ owner ∈ owners.zipIdx, ignored owner.1 = false →
    x[owner.2]? = y[owner.2]?

theorem sameOutside_iff {α : Type} {owners : List ℕ} {ignored : ℕ → Bool}
    {xs ys : Option (List α)} : SameOutside owners ignored xs ys ↔
      xs.isSome = ys.isSome ∧ ∀ x ∈ xs, ∀ y ∈ ys, ∀ owner ∈ owners.zipIdx,
        ignored owner.1 = false → x[owner.2]? = y[owner.2]? :=
  ⟨fun h => ⟨h.isSome_eq, h.slots⟩, fun h => ⟨h.1, h.2⟩⟩

instance {α : Type} [DecidableEq α] (owners : List ℕ) (ignored : ℕ → Bool)
    (xs ys : Option (List α)) : Decidable (SameOutside owners ignored xs ys) :=
  decidable_of_iff _ sameOutside_iff.symm

theorem SameOutside.cases {α : Type} {owners : List ℕ} {ignored : ℕ → Bool}
    {xs ys : Option (List α)} (h : SameOutside owners ignored xs ys) :
    xs = none ∧ ys = none ∨ ∃ x y, xs = some x ∧ ys = some y ∧
      ∀ (slot i : ℕ), owners[slot]? = some i → ignored i = false → x[slot]? = y[slot]? := by
  obtain ⟨hsome, hsame⟩ := h
  cases xs with
  | none => exact .inl ⟨rfl, by simpa using hsome.symm⟩
  | some x =>
      obtain ⟨y, rfl⟩ := Option.isSome_iff_exists.mp hsome.symm
      exact .inr ⟨x, y, rfl, rfl, fun slot i hslot =>
        hsame x rfl y rfl (i, slot) (List.mk_mem_zipIdx_iff_getElem?.mpr hslot)⟩

namespace Profile

/-- Two profiles that differ at most in counters of ignored functions. Weights have no price. -/
structure AgreeOutside (p : Program) (ignored : ℕ → Bool) (a b : Profile) : Prop where
  edges : SameOutside (p.owners .edges) ignored a.edgeCounts b.edgeCounts
  blocks : SameOutside (p.owners .blocks) ignored a.blockCounts b.blockCounts
  comm : SameOutside (p.owners .comm) ignored a.comm b.comm
  legacy : SameOutside (p.owners .legacyComm) ignored a.legacyComm b.legacyComm
  seconds : SameOutside (p.owners .seconds) ignored a.commSeconds b.commSeconds

theorem agreeOutside_iff {p : Program} {ignored : ℕ → Bool} {a b : Profile} :
    a.AgreeOutside p ignored b ↔
      SameOutside (p.owners .edges) ignored a.edgeCounts b.edgeCounts ∧
      SameOutside (p.owners .blocks) ignored a.blockCounts b.blockCounts ∧
      SameOutside (p.owners .comm) ignored a.comm b.comm ∧
      SameOutside (p.owners .legacyComm) ignored a.legacyComm b.legacyComm ∧
      SameOutside (p.owners .seconds) ignored a.commSeconds b.commSeconds :=
  ⟨fun h => ⟨h.edges, h.blocks, h.comm, h.legacy, h.seconds⟩,
    fun ⟨hedges, hblocks, hcomm, hlegacy, hseconds⟩ =>
      ⟨hedges, hblocks, hcomm, hlegacy, hseconds⟩⟩

instance (p : Program) (ignored : ℕ → Bool) (a b : Profile) :
    Decidable (a.AgreeOutside p ignored b) :=
  decidable_of_iff _ agreeOutside_iff.symm

variable {p : Program} {ignored : ℕ → Bool} {a b : Profile}

theorem countIn_congr {read : Function → List UInt64 → FunctionCounts} {size : Function → ℕ}
    {i : ℕ} (hi : ignored i = false) (block : BlockId) {xs ys : Option (List UInt64)}
    (h : SameOutside (p.ownersOf size) ignored xs ys) :
    p.countIn read size i block xs = p.countIn read size i block ys := by
  rcases h.cases with ⟨rfl, rfl⟩ | ⟨x, y, rfl, rfl, hsame⟩
  · rfl
  · cases hf : p.functions[i]? with
    | none => simp [Program.countIn, executionsIn_eq, List.getElem?_zipWith, hf]
    | some f =>
        have hslice : (x.drop ((p.functions.map size).take i).sum).take (size f) =
            (y.drop ((p.functions.map size).take i).sum).take (size f) := by
          refine List.ext_getElem? fun j => ?_
          rw [List.getElem?_take, List.getElem?_take, List.getElem?_drop, List.getElem?_drop]
          split
          case isTrue hj => exact hsame _ i (Program.getElem?_ownersOf hf hj) hi
          case isFalse => rfl
        rw [countIn_some hf, countIn_some hf, hslice]

theorem executionsIn_congr (h : a.AgreeOutside p ignored b)
    {functions functions' : List FunctionCounts} (ha : bindCounts p a = .ok functions)
    (hb : bindCounts p b = .ok functions') {i : ℕ} (hi : ignored i = false) (block : BlockId) :
    executionsIn functions i block = executionsIn functions' i block := by
  rw [executionsIn_of_bindCounts ha, executionsIn_of_bindCounts hb, ← h.edges.isSome_eq]
  split
  · exact countIn_congr hi block h.edges
  · exact countIn_congr hi block h.blocks

/-! ### Calls -/

/-- Lists that differ at most in elements that are left out. -/
theorem filter_congr_outside {α : Type} {keep : α → Bool} {xs ys : List α}
    (hlen : xs.length = ys.length)
    (h : ∀ (k : ℕ) (x y : α), xs[k]? = some x → ys[k]? = some y →
      keep x = keep y ∧ (keep x = true → x = y)) : xs.filter keep = ys.filter keep := by
  induction xs generalizing ys with
  | nil =>
      obtain rfl := List.eq_nil_of_length_eq_zero hlen.symm
      rfl
  | cons x xs ih =>
      cases ys with
      | nil => cases hlen
      | cons y ys =>
          have htail := ih (by simpa using hlen) fun k => h (k + 1)
          obtain ⟨hkeep, hsame⟩ := h 0 x y rfl rfl
          cases hx : keep x with
          | true =>
              rw [List.filter_cons_of_pos hx, List.filter_cons_of_pos (hkeep ▸ hx), hsame hx, htail]
          | false =>
              rw [List.filter_cons_of_neg (by simp [hx]),
                List.filter_cons_of_neg (by simp [← hkeep, hx]), htail]

/-- Values at the same sites, where they are the same at each site that is kept. -/
theorem filter_zip_congr {σ α β : Type} {sites : List σ} {xs ys : List α}
    (hx : xs.length = sites.length) (hy : ys.length = sites.length)
    {make make' : (σ × α) × ℕ → β} {keep : β → Bool} {kept : σ → Bool}
    (hkeep : ∀ z, keep (make z) = kept z.1.1) (hkeep' : ∀ z, keep (make' z) = kept z.1.1)
    (hmake : ∀ z, kept z.1.1 = true → make z = make' z)
    (hsame : ∀ (k : ℕ) (site : σ), sites[k]? = some site → kept site = true → xs[k]? = ys[k]?) :
    ((sites.zip xs).zipIdx.map make).filter keep =
      ((sites.zip ys).zipIdx.map make').filter keep := by
  refine filter_congr_outside (by simp [hx, hy]) fun k u v hu hv => ?_
  simp only [List.getElem?_map, Option.map_eq_some_iff, List.getElem?_zipIdx,
    List.getElem?_zip_eq_some] at hu hv
  obtain ⟨_, ⟨⟨site, value⟩, ⟨hsite, hvalue⟩, rfl⟩, rfl⟩ := hu
  obtain ⟨_, ⟨⟨site', value'⟩, ⟨hsite', hvalue'⟩, rfl⟩, rfl⟩ := hv
  obtain rfl : site = site' := Option.some.inj (hsite.symm.trans hsite')
  rw [hkeep, hkeep']
  refine ⟨rfl, fun hkept => ?_⟩
  obtain rfl : value = value' :=
    Option.some.inj (hvalue.symm.trans ((hsame k site hsite hkept).trans hvalue'))
  exact hmake _ hkept

theorem filter_bindPayloads (h : a.AgreeOutside p ignored b)
    {functions functions' : List FunctionCounts} {calls calls' : List TrappedCall}
    (hcount : ∀ i, ignored i = false → ∀ block,
      executionsIn functions i block = executionsIn functions' i block)
    (ha : bindPayloads p a functions = .ok calls) (hb : bindPayloads p b functions' = .ok calls') :
    calls.filter (fun call => !ignored call.site.function) =
      calls'.filter (fun call => !ignored call.site.function) := by
  have hkept : ∀ site : Comm.PayloadSite, (!ignored site.function) = true →
      ignored site.function = false := by simp
  rcases h.comm.cases with ⟨hx, hy⟩ | ⟨x, y, hx, hy, hsame⟩
  · rcases h.legacy.cases with ⟨hx', hy'⟩ | ⟨x, y, hx', hy', hsame⟩
    · simp only [bindPayloads, hx, hx'] at ha
      simp only [bindPayloads, hy, hy'] at hb
      rw [← Except.ok.inj ha, ← Except.ok.inj hb]
    · obtain ⟨hlen, rfl⟩ := (bindPayloads_legacy hx hx').mp ha
      obtain ⟨hlen', rfl⟩ := (bindPayloads_legacy hy hy').mp hb
      refine filter_zip_congr hlen hlen' (fun _ => rfl) (fun _ => rfl) (fun z hz => ?_)
        fun k site hsite hz => hsame k _ (by simp [Program.owners, hsite]) (hkept site hz)
      rw [hcount _ (hkept _ hz)]
  · obtain ⟨hlen, rfl⟩ := (bindPayloads_full hx).mp ha
    obtain ⟨hlen', rfl⟩ := (bindPayloads_full hy).mp hb
    exact filter_zip_congr hlen hlen' (fun _ => rfl) (fun _ => rfl) (fun _ _ => rfl)
      fun k site hsite hz => hsame k _ (by simp [Program.owners, hsite]) (hkept site hz)

theorem filter_bindTimes (h : a.AgreeOutside p ignored b) {calls calls' : List TimedCall}
    (ha : bindTimes p a = .ok calls) (hb : bindTimes p b = .ok calls') {keep : Comm.Site → Bool}
    (hkeep : ∀ site, keep site = true → ignored site.function = false) :
    calls.filter (keep ·.site) = calls'.filter (keep ·.site) := by
  rcases h.seconds.cases with ⟨hx, hy⟩ | ⟨x, y, hx, hy, hsame⟩
  · simp only [bindTimes, hx] at ha
    simp only [bindTimes, hy] at hb
    rw [← Except.ok.inj ha, ← Except.ok.inj hb]
  · obtain ⟨hlen, rfl⟩ := (bindTimes_some hx).mp ha
    obtain ⟨hlen', rfl⟩ := (bindTimes_some hy).mp hb
    have hcalls : ((p.timedSites.zip x).zipIdx.map fun z => TimedCall.mk z.1.1 z.1.2).filter
        (keep ·.site) =
        ((p.timedSites.zip y).zipIdx.map fun z => TimedCall.mk z.1.1 z.1.2).filter
        (keep ·.site) :=
      filter_zip_congr hlen hlen' (fun _ => rfl) (fun _ => rfl) (fun _ _ => rfl)
        fun k site hsite hz => hsame k _ (by simp [Program.owners, hsite]) (hkeep site hz)
    have hnumbers : ∀ seconds : List Binary64,
        (p.timedSites.zip seconds).zipIdx.map (fun z => TimedCall.mk z.1.1 z.1.2) =
          (p.timedSites.zip seconds).map fun z => TimedCall.mk z.1 z.2 := by
      intro seconds
      have h := congrArg (List.map fun z => TimedCall.mk z.1 z.2)
        (List.zipIdx_map_fst 0 (p.timedSites.zip seconds))
      rwa [List.map_map] at h
    rwa [hnumbers, hnumbers] at hcalls

end Profile

/-! ### Bindings -/

/-- Two bindings that are the same but for what belongs to ignored functions. -/
structure Binding.AgreeOutside (ignored : ℕ → Bool) (x y : Binding) : Prop where
  program : x.program = y.program
  hasBlockCounts : x.hasBlockCounts = y.hasBlockCounts
  executions : ∀ i, ignored i = false → ∀ block, x.executionCount i block = y.executionCount i block
  trapped : x.trapped.filter (fun call => !ignored call.site.function) =
    y.trapped.filter (fun call => !ignored call.site.function)
  timed : ∀ keep : Comm.Site → Bool, (∀ site, keep site = true → ignored site.function = false) →
    x.timed.filter (keep ·.site) = y.timed.filter (keep ·.site)

theorem Profile.AgreeOutside.bind {p : Program} {ignored : ℕ → Bool} {a b : Profile} {x y : Binding}
    (h : a.AgreeOutside p ignored b) (ha : a.bind p = .ok x) (hb : b.bind p = .ok y) :
    x.AgreeOutside ignored y := by
  obtain ⟨functions, trapped, timed, hfunctions, -, htrapped, htimed, rfl⟩ := bind_eq_ok_iff.mp ha
  obtain ⟨functions', trapped', timed', hfunctions', -, htrapped', htimed', rfl⟩ :=
    bind_eq_ok_iff.mp hb
  have hcount : ∀ i, ignored i = false → ∀ block,
      executionsIn functions i block = executionsIn functions' i block :=
    fun i hi block => executionsIn_congr h hfunctions hfunctions' hi block
  exact {
    program := rfl
    hasBlockCounts := congrArg₂ or h.edges.isSome_eq h.blocks.isSome_eq
    executions := hcount
    trapped := filter_bindPayloads h hcount htrapped htrapped'
    timed := fun _ hkeep => filter_bindTimes h htimed htimed' hkeep }

/-! ### Prices -/

namespace Price.Analyzer

variable {a : Analyzer} {x y : Binding}

theorem isIgnored_eq (site : Comm.Site) :
    a.isIgnored x site = x.program.isNamed a.ignore site.function := rfl

theorem functionName_congr (hprogram : y.program = x.program) :
    functionName y = functionName x := by
  funext site
  rw [functionName, functionName, hprogram]

theorem blockFrequency_congr {ignored : ℕ → Bool} (h : x.AgreeOutside ignored y)
    {call : TrappedCall} (hcall : ignored call.site.function = false) :
    x.blockFrequency call = y.blockFrequency call := by
  rw [Binding.blockFrequency, Binding.blockFrequency, h.hasBlockCounts, h.executions _ hcall]

theorem isIgnored_congr (h : x.AgreeOutside (x.program.isNamed a.ignore) y) (site : Comm.Site) :
    a.isIgnored y site = a.isIgnored x site := by
  rw [isIgnored_eq, isIgnored_eq, h.program]

/-- The calls whose time is priced. -/
theorem filter_isMeasured_congr (h : x.AgreeOutside (x.program.isNamed a.ignore) y) :
    y.timed.filter (a.isMeasured y) = x.timed.filter (a.isMeasured x) := by
  have hsame : a.isMeasured y = a.isMeasured x := by
    funext call
    rw [isMeasured, isMeasured, isIgnored_congr h]
  rw [hsame]
  refine (h.timed (fun site => !a.isIgnored x site &&
    site.op.stem ∉ ["init", "comm_rank", "comm_size"]) fun site hkeep => ?_).symm
  rw [Bool.and_eq_true, Bool.not_eq_true'] at hkeep
  exact hkeep.1

theorem priceCalls_congr (h : x.AgreeOutside (x.program.isNamed a.ignore) y) (costs : CommCosts)
    (r : Report) : a.priceCalls x costs r = a.priceCalls y costs r := by
  have hcalls : y.trapped.filter (fun call => !a.isIgnored y call.site) =
      x.trapped.filter fun call => !a.isIgnored x call.site := by
    simp only [isIgnored_congr h]
    exact h.trapped.symm
  have hfrequency : ∀ call ∈ x.trapped.filter (fun call => !a.isIgnored x call.site),
      y.blockFrequency call = x.blockFrequency call := by
    intro call hmem
    have hkept := (List.mem_filter.mp hmem).2
    exact (blockFrequency_congr h (by simpa [isIgnored_eq] using hkept)).symm
  simp only [priceCalls, functionName_congr h.program.symm, filter_isMeasured_congr h, hcalls]
  generalize x.trapped.filter (fun call => !a.isIgnored x call.site) = calls at hfrequency
  have hsum : calls.foldlM (fun n call => Count.add n (y.blockFrequency call)) r.mpiCalls =
      calls.foldlM (fun n call => Count.add n (x.blockFrequency call)) r.mpiCalls :=
    Outcome.foldlM_congr (fun call hmem n => by rw [hfrequency call hmem]) _
  have hns : calls.foldl (fun ns call => ns + costs.model.estimate call.site.op.category
        (y.blockFrequency call) call.bytes) r.mpiNs =
      calls.foldl (fun ns call => ns + costs.model.estimate call.site.op.category
        (x.blockFrequency call) call.bytes) r.mpiNs :=
    List.foldl_ext _ _ _ fun ns call hmem => by rw [hfrequency call hmem]
  have hshares : (calls.map fun call => CallShare.mk call.index (functionName x call.site)
        call.site.block call.site.callee (y.blockFrequency call) (costs.model.estimate
          call.site.op.category (y.blockFrequency call) call.bytes)) =
      calls.map fun call => CallShare.mk call.index (functionName x call.site)
        call.site.block call.site.callee (x.blockFrequency call) (costs.model.estimate
          call.site.op.category (x.blockFrequency call) call.bytes) :=
    List.map_congr_left fun call hmem => by rw [hfrequency call hmem]
  rw [hsum, hns, hshares]

theorem price_congr (h : x.AgreeOutside (x.program.isNamed a.ignore) y) (s : Source) (r : Report) :
    a.price x r s = a.price y r s := by
  have hcounted : a.counted x = a.counted y := by
    refine (counted_congr h.program.symm fun f i hf hname block => ?_).symm
    exact (h.executions i (Program.isNamed_eq_false hf hname) block).symm
  cases s with
  | block costs => simp only [price, priceBlocks, hcounted]
  | mpi costs => exact priceCalls_congr h costs r
  | libcall costs => simp only [price, priceLibrary, hcounted]

/-- Ignored functions have no influence on a report, nor on whether there is one. -/
theorem run_ignoring {p : Program} {profile other : Profile} (hx : profile.bind p = .ok x)
    (hy : other.bind p = .ok y) (h : profile.AgreeOutside p (p.isNamed a.ignore) other) :
    a.run x = a.run y := by
  have hagree := h.bind hx hy
  obtain ⟨_, _, _, -, -, -, -, rfl⟩ := Profile.bind_eq_ok_iff.mp hx
  exact Outcome.foldlM_congr (fun s _ r => price_congr hagree s r) _

end Price.Analyzer

/-! ### A function that sends -/

/-- A message of its own, and one of a function that it calls. -/
def sendAndCall : Program where
  functions := [
    ⟨"main", [⟨"entry", [.call (.direct "MPI_Send") [.const 0, .const 1, .const 8],
      .call (.direct "helper") []], .ret⟩]⟩,
    ⟨"helper", [⟨"entry", [.call (.direct "MPI_Send") [.const 0, .const 2, .const 8]], .ret⟩]⟩]
  globals := []

def helperCalled : Profile :=
  { Profile.empty with edgeCounts := some [1, 1], legacyComm := some [8, 16] }

def helperCalledOften : Profile :=
  { Profile.empty with edgeCounts := some [1, 7], legacyComm := some [8, 112] }

/-- How often the helper was called cannot be told from a report that ignores it. -/
theorem run_ignoring_helper :
    ∃ x y, helperCalled.bind sendAndCall = .ok x ∧ helperCalledOften.bind sendAndCall = .ok y ∧
      x.executionCount 1 0 = 1 ∧ y.executionCount 1 0 = 7 ∧
      ∀ sources verbose, Price.Analyzer.run ⟨sources, ["helper"], verbose⟩ x =
        Price.Analyzer.run ⟨sources, ["helper"], verbose⟩ y := by
  have hx : helperCalled.bind sendAndCall = .ok _ := rfl
  have hy : helperCalledOften.bind sendAndCall = .ok _ := rfl
  have hagree : helperCalled.AgreeOutside sendAndCall (sendAndCall.isNamed ["helper"])
      helperCalledOften := by decide
  exact ⟨_, _, hx, hy, rfl, rfl, fun _ _ => Price.Analyzer.run_ignoring hx hy hagree⟩

end FlowProfile
