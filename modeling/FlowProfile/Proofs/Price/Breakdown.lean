import FlowProfile.Proofs.Price.Parts

/-!
# What a breakdown accounts for

A verbose run comes to the same totals as one that is not, and there is a report of the one exactly
if there is one of the other. Its breakdown adds up to the totals: opcodes to the instructions,
functions to the time of blocks, and calls to the numbers and the time of communication.
-/

namespace FlowProfile

/-- What each step of a fold adds is added up. -/
theorem Outcome.measure_foldlM {α β : Type} {step : β → α → Outcome β} (measure : β → ℕ)
    (weight : α → ℕ) {xs : List α}
    (hstep : ∀ x ∈ xs, ∀ c d, step c x = .ok d → measure d = measure c + weight x) {c d : β}
    (h : xs.foldlM step c = .ok d) : measure d = measure c + (xs.map weight).sum := by
  rw [foldl_of_foldlM measure (fun n x => n + weight x) hstep h, ← List.foldl_map,
    List.sum_eq_foldl]
  exact @List.foldl_assoc ℕ (· + ·) _ (xs.map weight) (measure c) 0

theorem Profile.program_of_bind {p : Program} {profile : Profile} {b : Binding}
    (h : profile.bind p = .ok b) : b.program = p := by
  obtain ⟨_, _, _, -, -, -, -, rfl⟩ := bind_eq_ok_iff.mp h
  rfl

/-- Trapped calls stand in the order of the program, each at its own number. -/
theorem Profile.trapped_getElem? {p : Program} {profile : Profile} {b : Binding}
    (h : profile.bind p = .ok b) {i : ℕ} {call : TrappedCall} (hi : b.trapped[i]? = some call) :
    call.index = i ∧ (p.payloadSites[i]?).map (·.toSite) = some call.site := by
  have hplace : ∀ {α : Type} {counters : List α} {entry : (Comm.PayloadSite × α) × ℕ → TrappedCall},
      (∀ x, (entry x).index = x.2 ∧ (entry x).site = x.1.1.toSite) →
      ((p.payloadSites.zip counters).zipIdx.map entry)[i]? = some call →
      call.index = i ∧ (p.payloadSites[i]?).map (·.toSite) = some call.site := by
    intro α counters entry hentry hcall
    simp only [List.getElem?_map, List.getElem?_zipIdx, Option.map_eq_some_iff,
      Nat.zero_add] at hcall
    obtain ⟨_, ⟨⟨site, counter⟩, hzip, rfl⟩, rfl⟩ := hcall
    obtain ⟨hsite, -⟩ := List.getElem?_zip_eq_some.mp hzip
    obtain ⟨hindex, hsame⟩ := hentry ((site, counter), i)
    exact ⟨hindex, by rw [hsite, hsame, Option.map_some]⟩
  obtain ⟨functions, trapped, _, -, -, htrapped, -, rfl⟩ := bind_eq_ok_iff.mp h
  cases hcomm : profile.comm with
  | some counters =>
      obtain ⟨-, rfl⟩ := (bindPayloads_full hcomm).mp htrapped
      exact hplace (fun _ => ⟨rfl, rfl⟩) hi
  | none =>
      cases hlegacy : profile.legacyComm with
      | some bytes =>
          obtain ⟨-, rfl⟩ := (bindPayloads_legacy hcomm hlegacy).mp htrapped
          exact hplace (fun _ => ⟨rfl, rfl⟩) hi
      | none =>
          rw [bindPayloads, hcomm, hlegacy] at htrapped
          obtain rfl := Except.ok.inj htrapped
          cases hi

namespace Price

/-- The totals alone. -/
def Report.totals (r : Report) : Report := { r with breakdown := none }

/-! ### Opcodes -/

/-- The runs of all opcodes together. -/
def allRuns (shares : List (String × OpcodeShare)) : ℕ := (shares.map (·.2.count.toNat)).sum

/-- One entry is changed, or made between others. -/
theorem exists_of_revise {α : Type} {name : String} {change : Option α → Outcome α}
    {entries entries' : List (String × α)} (h : revise name change entries = .ok entries') :
    ∃ before after old new, change old = .ok new ∧
      entries = before ++ (old.map (name, ·)).toList ++ after ∧
      entries' = before ++ (name, new) :: after := by
  induction entries generalizing entries' with
  | nil =>
      simp only [revise, Outcome.bind_eq_ok_iff, Outcome.pure_eq_ok_iff] at h
      obtain ⟨new, hnew, rfl⟩ := h
      exact ⟨[], [], none, new, hnew, rfl, rfl⟩
  | cons entry entries ih =>
      unfold revise at h
      split at h
      · simp only [Outcome.bind_eq_ok_iff, Outcome.pure_eq_ok_iff] at h
        obtain ⟨new, hnew, rfl⟩ := h
        exact ⟨[], entry :: entries, none, new, hnew, rfl, rfl⟩
      · split at h
        · next hname =>
          simp only [Outcome.bind_eq_ok_iff, Outcome.pure_eq_ok_iff] at h
          obtain ⟨new, hnew, rfl⟩ := h
          exact ⟨[], entries, some entry.2, new, hnew, by simp [← hname], by simp [hname]⟩
        · simp only [Outcome.bind_eq_ok_iff, Outcome.pure_eq_ok_iff] at h
          obtain ⟨rest, hrest, rfl⟩ := h
          obtain ⟨before, after, old, new, hnew, rfl, rfl⟩ := ih hrest
          exact ⟨entry :: before, after, old, new, hnew, rfl, rfl⟩

/-! ### Names of opcodes -/

/-- Inserts into a rising list what it does not have. -/
def insertName (name : String) : List String → List String
  | [] => [name]
  | n :: ns =>
    if name < n then name :: n :: ns
    else if n = name then n :: ns
    else n :: insertName name ns

theorem mem_insertName {name other : String} {names : List String} :
    other ∈ insertName name names ↔ other = name ∨ other ∈ names := by
  fun_induction insertName name names <;> grind

theorem pairwise_insertName {name : String} {names : List String} (h : names.Pairwise (· < ·)) :
    (insertName name names).Pairwise (· < ·) := by
  induction names with
  | nil => exact List.pairwise_singleton _ _
  | cons n names ih =>
      obtain ⟨hn, hnames⟩ := List.pairwise_cons.mp h
      unfold insertName
      split
      case isTrue hlt =>
          refine List.pairwise_cons.mpr ⟨fun other hmem => ?_, h⟩
          rcases List.mem_cons.mp hmem with rfl | hmem
          · exact hlt
          · exact String.lt_trans hlt (hn other hmem)
      case isFalse hnlt =>
          split
          case isTrue => exact h
          case isFalse hne =>
              refine List.pairwise_cons.mpr ⟨fun other hmem => ?_, ih hnames⟩
              rcases mem_insertName.mp hmem with rfl | hmem
              · exact Std.lt_of_le_of_ne (String.not_lt.mp hnlt) hne
              · exact hn other hmem

/-- The names of the entries never depend on what they hold. -/
theorem names_of_revise {α : Type} {name : String} {change : Option α → Outcome α}
    {entries entries' : List (String × α)} (h : revise name change entries = .ok entries') :
    entries'.map Prod.fst = insertName name (entries.map Prod.fst) := by
  induction entries generalizing entries' with
  | nil =>
      simp only [revise, Outcome.bind_eq_ok_iff, Outcome.pure_eq_ok_iff] at h
      obtain ⟨_, -, rfl⟩ := h
      rfl
  | cons entry entries ih =>
      rw [List.map_cons, insertName]
      unfold revise at h
      split at h
      case isTrue hlt =>
          simp only [Outcome.bind_eq_ok_iff, Outcome.pure_eq_ok_iff] at h
          obtain ⟨_, -, rfl⟩ := h
          rw [if_pos hlt]
          rfl
      case isFalse hnlt =>
          rw [if_neg hnlt]
          split at h
          case isTrue hname =>
              simp only [Outcome.bind_eq_ok_iff, Outcome.pure_eq_ok_iff] at h
              obtain ⟨_, -, rfl⟩ := h
              rw [if_pos hname]
              rfl
          case isFalse hname =>
              simp only [Outcome.bind_eq_ok_iff, Outcome.pure_eq_ok_iff] at h
              obtain ⟨rest, hrest, rfl⟩ := h
              rw [if_neg hname, List.map_cons, ih hrest]

/-- Each opcode has one share, which has all its runs. -/
theorem runsOf_of_mem {shares : List (String × OpcodeShare)}
    (hnames : (shares.map Prod.fst).Pairwise (· < ·)) {entry : String × OpcodeShare}
    (hentry : entry ∈ shares) : runsOf shares entry.1 = entry.2.count.toNat := by
  induction shares with
  | nil => cases hentry
  | cons other shares ih =>
      rw [List.map_cons, List.pairwise_cons] at hnames
      rw [runsOf_cons]
      rcases List.mem_cons.mp hentry with rfl | hentry
      · have hnone : shares.filter (·.1 == entry.1) = [] := by
          refine List.filter_eq_nil_iff.mpr fun share hshare hsame => ?_
          have hlt := hnames.1 _ (List.mem_map_of_mem hshare)
          rw [beq_iff_eq.mp hsame] at hlt
          exact String.lt_irrefl _ hlt
        rw [if_pos rfl, runsOf, hnone]
        rfl
      · have hlt := hnames.1 _ (List.mem_map_of_mem hentry)
        have hne : other.1 ≠ entry.1 := fun hsame => String.lt_irrefl _ (hsame ▸ hlt)
        rw [if_neg hne, Nat.zero_add, ih hnames.2 hentry]

namespace Analyzer

variable {a : Analyzer} {b : Binding} {r r' : Report} {d : Breakdown}

theorem allRuns_addOpcode {n : UInt64} {costs : InstructionCosts} {opcode : String}
    {shares shares' : List (String × OpcodeShare)}
    (h : addOpcode costs n shares opcode = .ok shares') :
    allRuns shares' = allRuns shares + n.toNat := by
  obtain ⟨before, after, old, new, hnew, rfl, rfl⟩ := exists_of_revise h
  simp only [Count.add_eq_total, Outcome.bind_eq_ok_iff, Outcome.pure_eq_ok_iff] at hnew
  obtain ⟨count, hcount, rfl⟩ := hnew
  have hsum := Count.toNat_of_total hcount
  cases old with
  | none =>
      simp only [Option.getD_none, UInt64.toNat_zero] at hsum
      simp [allRuns]
      omega
  | some share =>
      simp only [Option.getD_some] at hsum
      simp [allRuns]
      omega

theorem allRuns_addOpcodes {costs : InstructionCosts} {entry : Block × UInt64}
    {shares shares' : List (String × OpcodeShare)}
    (h : addOpcodes costs shares entry = .ok shares') :
    allRuns shares' = allRuns shares + entry.2.toNat * entry.1.opcodes.length := by
  have hsum := Outcome.measure_foldlM allRuns (fun _ => entry.2.toNat)
    (fun opcode _ shares shares' => allRuns_addOpcode) h
  rwa [List.map_const', List.sum_replicate, smul_eq_mul, Nat.mul_comm] at hsum

/-- All runs of opcodes are the instructions. -/
theorem allRuns_eq_instructions {costs : InstructionCosts}
    (hsize : ∀ entry ∈ a.blocks b, entry.1.opcodes.length < 2 ^ 64) {instructions : UInt64}
    {opcodes : List (String × OpcodeShare)}
    (hsum : (a.blocks b).foldlM addInstructions 0 = .ok instructions)
    (hopcodes : (a.blocks b).foldlM (addOpcodes costs) [] = .ok opcodes) :
    allRuns opcodes = instructions.toNat := by
  rw [foldlM_addInstructions hsize] at hsum
  rw [Count.toNat_of_total hsum]
  exact Outcome.measure_foldlM allRuns (fun entry => entry.2.toNat * entry.1.opcodes.length)
    (fun entry _ _ _ => allRuns_addOpcodes) hopcodes

theorem names_of_addOpcodes {costs : InstructionCosts} {blocks : List (Block × UInt64)}
    {shares shares' : List (String × OpcodeShare)}
    (h : blocks.foldlM (addOpcodes costs) shares = .ok shares') :
    shares'.map Prod.fst = (blocks.flatMap (·.1.opcodes)).foldl
      (fun names opcode => insertName opcode names) (shares.map Prod.fst) := by
  rw [List.foldl_flatMap]
  refine Outcome.foldl_of_foldlM (List.map Prod.fst) _ (fun entry _ c d hentry => ?_) h
  exact Outcome.foldl_of_foldlM (List.map Prod.fst) (fun names opcode => insertName opcode names)
    (fun opcode _ c d => names_of_revise) hentry

/-! ### The same totals -/

/-- What is priced without a breakdown comes to the totals. -/
theorem price_totals {s : Source} (h : a.price b r s = .ok r') :
    a.price b r.totals s = .ok r'.totals := by
  cases s with
  | block costs =>
      obtain ⟨instructions, _, hsum, -, rfl⟩ := priceBlocks_eq_ok_iff.mp h
      exact priceBlocks_eq_ok_iff.mpr ⟨instructions, none, hsum, .inl ⟨rfl, rfl⟩, rfl⟩
  | mpi costs =>
      simp only [price, priceCalls, Outcome.bind_eq_ok_iff, Outcome.pure_eq_ok_iff] at h ⊢
      obtain ⟨mpiCalls, hsum, rfl⟩ := h
      exact ⟨mpiCalls, hsum, rfl⟩
  | libcall costs =>
      obtain rfl := Except.ok.inj h
      rfl

theorem foldlM_totals {sources : List Source} (h : sources.foldlM (a.price b) r = .ok r') :
    sources.foldlM (a.price b) r.totals = .ok r'.totals := by
  induction sources generalizing r with
  | nil =>
      obtain rfl : r = r' := by simpa using h
      rfl
  | cons s sources ih =>
      rw [List.foldlM_cons, Outcome.bind_eq_ok_iff] at h
      obtain ⟨mid, hmid, h⟩ := h
      rw [List.foldlM_cons, price_totals hmid]
      exact ih h

/-- Verbosity changes neither totals nor whether there are any. The opcodes never are too many where
the instructions are not. -/
theorem run_totals (hsize : ∀ entry ∈ a.blocks b, entry.1.opcodes.length < 2 ^ 64) :
    ({ a with verbose := false }).run b =
      (({ a with verbose := true }).run b).map Report.totals := by
  have hverbose : (a.total b).Decides (({ a with verbose := true }).run b) :=
    decides_total (a := { a with verbose := true }) hsize
  have hterse : (a.total b).Decides (({ a with verbose := false }).run b) :=
    decides_total (a := { a with verbose := false }) hsize
  by_cases hfits : (a.total b).Fits
  · obtain ⟨r, hr, -⟩ := hverbose.exists_report hfits
    rw [hr]
    exact foldlM_totals hr
  · rw [Tally.Decides, if_neg hfits] at hverbose hterse
    rw [hverbose, hterse]
    rfl

/-! ### The breakdown of a run -/

theorem isSome_breakdown_of_price {s : Source} (h : a.price b r s = .ok r') :
    r'.breakdown.isSome = r.breakdown.isSome := by
  obtain ⟨kind, hkind⟩ : ∃ kind, s.kind ≠ kind := by
    cases s with
    | block | libcall => exact ⟨.mpi, nofun⟩
    | mpi => exact ⟨.block, nofun⟩
  have hpart := congrArg (·.breakdown.isSome) (part_of_price h hkind)
  cases kind <;> simpa [Report.part] using hpart

theorem isSome_breakdown_of_run (h : a.run b = .ok r) : r.breakdown.isSome = a.verbose := by
  refine Outcome.foldlM_invariant (fun r => r.breakdown.isSome = a.verbose)
    (fun s _ r r' hr hs => (isSome_breakdown_of_price hs).trans hr) ?_ h
  cases a.verbose <;> rfl

theorem verbose_of_run (h : a.run b = .ok r) (hd : r.breakdown = some d) : a.verbose = true := by
  rw [← isSome_breakdown_of_run h, hd]
  rfl

/-- A kind that has a source is priced by the first. -/
theorem exists_price_of_run (h : a.run b = .ok r) {kind : Kind}
    (hkind : kind ∈ a.sources.map Source.kind) :
    ∃ s, s.kind = kind ∧ a.price b (.empty a.verbose) s = .ok (r.part kind) := by
  have hfirst := run_eq_ok_iff.mp h kind
  obtain ⟨s, hs, rfl⟩ := List.mem_map.mp hkind
  have hsome : (a.sources.find? (·.kind = s.kind)).isSome :=
    List.find?_isSome.mpr ⟨s, hs, decide_eq_true rfl⟩
  obtain ⟨t, ht⟩ := Option.isSome_iff_exists.mp hsome
  rw [priceFirst, ht] at hfirst
  exact ⟨t, by simpa using List.find?_some ht, hfirst⟩

/-- Without a source of its kind a part of the report is empty. -/
theorem part_of_run (h : a.run b = .ok r) (hd : r.breakdown = some d) {kind : Kind}
    (hkind : kind ∉ a.sources.map Source.kind) : r.part kind = .empty true := by
  have hempty := run_eq_ok_iff.mp h kind
  rw [priceFirst_of_notMem hkind, verbose_of_run h hd] at hempty
  exact (Except.ok.inj hempty).symm

/-- What a source of blocks leaves in a report. -/
theorem exists_costs_of_run (h : a.run b = .ok r) (hd : r.breakdown = some d)
    (hkind : .block ∈ a.sources.map Source.kind) :
    ∃ costs, (a.blocks b).foldlM addInstructions 0 = .ok r.instructions ∧
      (a.blocks b).foldlM (addOpcodes costs) [] = .ok d.opcodes ∧
      d.functions = (a.counted b).map (fun f => (f.name, functionNs costs f)) ∧
      r.blockNs = d.functions.foldl (fun ns f => ns + f.2) 0 := by
  have hempty : (Report.empty a.verbose).breakdown = some .empty := by
    rw [verbose_of_run h hd]
    rfl
  obtain ⟨s, hs, hprice⟩ := exists_price_of_run h hkind
  cases s with
  | mpi | libcall => cases hs
  | block costs =>
      obtain ⟨instructions, _, hsum, hbreakdown, hpart⟩ := priceBlocks_eq_ok_iff.mp hprice
      simp only [hempty, reduceCtorEq, false_and, false_or, Option.some_inj] at hbreakdown
      obtain ⟨_, opcodes, rfl, hopcodes, rfl⟩ := hbreakdown
      have hinstructions : r.instructions = instructions := congrArg Report.instructions hpart
      have hshares := congrArg Report.breakdown hpart
      simp only [Report.part, hd, Option.map_some, Option.some_inj, Breakdown.mk.injEq] at hshares
      obtain ⟨rfl, hfunctions, -⟩ := hshares
      have htimes : d.functions = (a.counted b).map fun f => (f.name, functionNs costs f) :=
        hfunctions
      refine ⟨costs, hinstructions ▸ hsum, hopcodes, htimes, ?_⟩
      rw [htimes]
      exact congrArg Report.blockNs hpart

/-- The share of a call. -/
def callShare (b : Binding) (estimate : TrappedCall → Binary64) (call : TrappedCall) : CallShare :=
  ⟨call.index, functionName b call.site, call.site.block, call.site.callee, b.blockFrequency call,
    estimate call⟩

/-- What a source of communication leaves in a report. -/
theorem exists_estimate_of_run (h : a.run b = .ok r) (hd : r.breakdown = some d)
    (hkind : .mpi ∈ a.sources.map Source.kind) :
    ∃ estimate, d.calls = (a.calls b).map (callShare b estimate) ∧
      Count.total ((a.calls b).map fun call => (b.blockFrequency call).toNat).sum =
        .ok r.mpiCalls ∧
      r.mpiNs = d.calls.foldl (fun ns share => ns + share.estimateNs) 0 ∧
      r.commAmount = Count.saturate ((a.calls b).map (·.bytes.toNat)).sum := by
  have hempty : (Report.empty a.verbose).breakdown = some .empty := by
    rw [verbose_of_run h hd]
    rfl
  obtain ⟨s, hs, hprice⟩ := exists_price_of_run h hkind
  cases s with
  | block | libcall => cases hs
  | mpi costs =>
      simp only [price, priceCalls, Outcome.bind_eq_ok_iff, Outcome.pure_eq_ok_iff, hempty,
        Option.map_some] at hprice
      obtain ⟨mpiCalls, hsum, hpart⟩ := hprice
      have hnumber : r.mpiCalls = mpiCalls := (congrArg Report.mpiCalls hpart).symm
      have hbreakdown := congrArg Report.breakdown hpart
      simp only [Report.part, hd, Option.map_some, Option.some_inj, Breakdown.mk.injEq]
        at hbreakdown
      obtain ⟨-, -, hshares⟩ := hbreakdown
      rw [Breakdown.empty, List.nil_append] at hshares
      refine ⟨_, hshares.symm, ?_, ?_, ?_⟩
      · rw [Count.foldlM_total fun call _ n => Count.add_eq_total n (b.blockFrequency call)] at hsum
        rw [hnumber, ← hsum]
        exact congrArg Count.total (Nat.zero_add _).symm
      · rw [← hshares, List.foldl_map]
        exact (congrArg Report.mpiNs hpart).symm
      · have hbytes := (congrArg Report.commAmount hpart).symm.trans
          (Count.foldl_saturatingAdd TrappedCall.bytes (a.calls b) 0)
        rwa [Nat.zero_add] at hbytes

/-- The opcodes that a breakdown names. -/
def opcodeNames (a : Analyzer) (b : Binding) : List String :=
  if .block ∈ a.sources.map Source.kind then
    ((a.blocks b).flatMap (·.1.opcodes)).foldl (fun names opcode => insertName opcode names) []
  else []

theorem pairwise_opcodeNames (a : Analyzer) (b : Binding) :
    (a.opcodeNames b).Pairwise (· < ·) := by
  unfold opcodeNames
  split
  case isTrue =>
      refine List.foldlRecOn _ _ List.Pairwise.nil fun names hnames opcode _ => ?_
      exact pairwise_insertName hnames
  case isFalse => exact List.Pairwise.nil

theorem names_of_run (h : a.run b = .ok r) (hd : r.breakdown = some d) :
    d.opcodes.map Prod.fst = a.opcodeNames b := by
  unfold opcodeNames
  split
  case isTrue hkind =>
      obtain ⟨_, -, hopcodes, -⟩ := exists_costs_of_run h hd hkind
      exact names_of_addOpcodes hopcodes
  case isFalse hkind =>
      have hpart := congrArg Report.breakdown (part_of_run h hd hkind)
      simp only [Report.part, hd, Option.map_some, Option.some_inj, Breakdown.empty,
        Breakdown.mk.injEq, Report.empty, if_true] at hpart
      rw [hpart.1, List.map_nil]

theorem calls_of_run (h : a.run b = .ok r) (hd : r.breakdown = some d)
    (hkind : .mpi ∉ a.sources.map Source.kind) : d.calls = [] := by
  have hpart := congrArg Report.breakdown (part_of_run h hd hkind)
  simp only [Report.part, hd, Option.map_some, Option.some_inj, Breakdown.empty,
    Breakdown.mk.injEq, Report.empty, if_true] at hpart
  exact hpart.2.2

end Analyzer

/-! ### Accounts -/

variable {a : Analyzer} {b : Binding} {r : Report} {d : Breakdown}

/-- Opcodes and functions account for the totals of blocks. -/
structure Breakdown.AccountsForBlocks (a : Analyzer) (b : Binding) (r : Report) (d : Breakdown) :
    Prop where
  instructions : allRuns d.opcodes = r.instructions.toNat
  functions : d.functions.map Prod.fst =
    (b.program.definedFunctions.filter fun f => f.1.name ∉ a.ignore).map fun f => f.1.name
  blockNs : r.blockNs = d.functions.foldl (fun ns f => ns + f.2) 0

/-- The share of a trapped call. -/
structure CallShare.Of (b : Binding) (call : TrappedCall) (share : CallShare) : Prop where
  index : share.index = call.index
  /-- Calls are numbered in the order of the program. -/
  site : (b.program.payloadSites[share.index]?).map (·.toSite) = some call.site
  function : share.function = Analyzer.functionName b call.site
  block : share.block = call.site.block
  callee : share.callee = call.site.callee
  frequency : share.frequency = b.blockFrequency call

/-- Calls account for the totals of communication. -/
structure Breakdown.AccountsForCalls (a : Analyzer) (b : Binding) (r : Report) (d : Breakdown) :
    Prop where
  calls : List.Forall₂ (CallShare.Of b) (a.calls b) d.calls
  ordered : (d.calls.map (·.index)).Pairwise (· < ·)
  mpiCalls : (d.calls.map (·.frequency.toNat)).sum = r.mpiCalls.toNat
  mpiNs : r.mpiNs = d.calls.foldl (fun ns share => ns + share.estimateNs) 0
  commAmount : r.commAmount.toNat = min ((a.calls b).map (·.bytes.toNat)).sum (2 ^ 64 - 1)

namespace Analyzer

theorem accountsForBlocks (hsize : ∀ entry ∈ a.blocks b, entry.1.opcodes.length < 2 ^ 64)
    (h : a.run b = .ok r) (hd : r.breakdown = some d)
    (hkind : .block ∈ a.sources.map Source.kind) : d.AccountsForBlocks a b r := by
  obtain ⟨costs, hsum, hopcodes, htimes, hns⟩ := exists_costs_of_run h hd hkind
  constructor
  · exact allRuns_eq_instructions hsize hsum hopcodes
  · rw [htimes, counted, List.map_map, List.map_map]
    rfl
  · exact hns

theorem pairwise_index_calls {p : Program} {profile : Profile} (hb : profile.bind p = .ok b) :
    ((a.calls b).map (·.index)).Pairwise (· < ·) := by
  have hindex : b.trapped.map (·.index) = List.range b.trapped.length := by
    refine List.ext_getElem? fun i => ?_
    rw [List.getElem?_map]
    cases hi : b.trapped[i]? with
    | none => simpa using List.getElem?_eq_none_iff.mp hi
    | some call =>
        rw [Option.map_some, (Profile.trapped_getElem? hb hi).1,
          List.getElem?_range (List.getElem?_eq_some_iff.mp hi).1]
  have hall : (b.trapped.map (·.index)).Pairwise (· < ·) := hindex ▸ List.pairwise_lt_range
  exact hall.sublist (List.filter_sublist.map _)

theorem accountsForCalls {p : Program} {profile : Profile} (hb : profile.bind p = .ok b)
    (h : a.run b = .ok r) (hd : r.breakdown = some d)
    (hkind : .mpi ∈ a.sources.map Source.kind) : d.AccountsForCalls a b r := by
  obtain ⟨estimate, hcalls, hsum, hns, hbytes⟩ := exists_estimate_of_run h hd hkind
  constructor
  · rw [hcalls, List.forall₂_map_right_iff]
    refine List.forall₂_same.mpr fun call hcall => ⟨rfl, ?_, rfl, rfl, rfl, rfl⟩
    obtain ⟨i, hi⟩ := List.mem_iff_getElem?.mp (List.mem_of_mem_filter hcall)
    obtain ⟨rfl, hsite⟩ := Profile.trapped_getElem? hb hi
    rw [Profile.program_of_bind hb]
    exact hsite
  · rw [hcalls, List.map_map]
    exact pairwise_index_calls hb
  · rw [hcalls, List.map_map, Count.toNat_of_total hsum]
    rfl
  · exact hns
  · rw [hbytes, Count.toNat_saturate]

/-- What bounds the blocks of a program bounds those that are counted. -/
theorem length_opcodes_of_bind {p : Program} {profile : Profile} (hb : profile.bind p = .ok b)
    (hsize : ∀ f ∈ p.functions, ∀ block ∈ f.blocks, block.opcodes.length < 2 ^ 64) :
    ∀ entry ∈ a.blocks b, entry.1.opcodes.length < 2 ^ 64 := by
  intro entry hentry
  obtain ⟨f, hf, hblock⟩ := mem_blocks hentry
  exact hsize f (Profile.program_of_bind hb ▸ hf) entry.1 hblock

/-- A verbose run has the same totals as one that is not, or neither comes to a report. Its
breakdown accounts for the totals of all kinds that have a source. -/
theorem run_verbose {p : Program} {profile : Profile} (hb : profile.bind p = .ok b)
    (hsize : ∀ f ∈ p.functions, ∀ block ∈ f.blocks, block.opcodes.length < 2 ^ 64)
    (a : Analyzer) :
    ({ a with verbose := false }).run b = (({ a with verbose := true }).run b).map Report.totals ∧
    ∀ r, ({ a with verbose := true }).run b = .ok r → ∃ d, r.breakdown = some d ∧
      (.block ∈ a.sources.map Source.kind → d.AccountsForBlocks a b r) ∧
      (.mpi ∈ a.sources.map Source.kind → d.AccountsForCalls a b r) := by
  have hblocks : ∀ entry ∈ a.blocks b, entry.1.opcodes.length < 2 ^ 64 :=
    length_opcodes_of_bind hb hsize
  refine ⟨run_totals hblocks, fun r hr => ?_⟩
  obtain ⟨d, hd⟩ := Option.isSome_iff_exists.mp (isSome_breakdown_of_run hr)
  refine ⟨d, hd, fun hkind => ?_, fun hkind => ?_⟩
  · obtain ⟨hinstructions, hfunctions, hns⟩ := accountsForBlocks
      (a := { a with verbose := true }) hblocks hr hd hkind
    exact ⟨hinstructions, hfunctions, hns⟩
  · obtain ⟨hcalls, hordered, hmpi, hns, hbytes⟩ := accountsForCalls
      (a := { a with verbose := true }) hb hr hd hkind
    exact ⟨hcalls, hordered, hmpi, hns, hbytes⟩

end Analyzer

/-- Five instructions, and two calls that move 24 bytes. -/
theorem run_verbose_blocksTwice :
    ∃ b r d, helperCalled.bind sendAndCall = .ok b ∧
      (∀ f ∈ sendAndCall.functions, ∀ block ∈ f.blocks, block.opcodes.length < 2 ^ 64) ∧
      blocksTwice.run b = .ok r ∧ r.breakdown = some d ∧
      (d.AccountsForBlocks blocksTwice b r ∧ r.instructions = 5) ∧
      (d.AccountsForCalls blocksTwice b r ∧ r.mpiCalls = 2 ∧ r.commAmount = 24) ∧
      ({ blocksTwice with verbose := false }).run b = .ok r.totals := by
  have hb : helperCalled.bind sendAndCall = .ok _ := rfl
  have hsize : ∀ f ∈ sendAndCall.functions, ∀ block ∈ f.blocks,
      block.opcodes.length < 2 ^ 64 := by decide
  obtain ⟨htotals, haccounts⟩ := Analyzer.run_verbose hb hsize blocksTwice
  obtain ⟨d, hd, hblocks, hcalls⟩ := haccounts _ rfl
  exact ⟨_, _, d, hb, hsize, rfl, hd, ⟨hblocks (by decide), rfl⟩, ⟨hcalls (by decide), rfl, rfl⟩,
    htotals⟩

end Price

end FlowProfile
