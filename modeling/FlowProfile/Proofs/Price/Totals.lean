import FlowProfile.Price.Analyzer
import FlowProfile.Proofs.Exec.Instruction
import FlowProfile.Proofs.Outcome
import FlowProfile.Proofs.Profile.Additive

/-!
# What a report counts

A report counts instructions, calls, bytes and the runs of each opcode. The bytes stop at the
greatest count. Everything else has to fit: there is a report exactly if the exact numbers of
instructions and of calls are counts. The runs of an opcode are among the instructions, so they fit
whenever those do.
-/

namespace FlowProfile

namespace Count

/-- A number as a count, which is a fault if it is too large for one. -/
def total (n : ℕ) : Outcome UInt64 := if n < 2 ^ 64 then .ok (.ofNat n) else .fault .overflow

theorem toNat_of_total {n : ℕ} {count : UInt64} (h : total n = .ok count) : count.toNat = n := by
  unfold total at h
  split at h
  case isTrue hn =>
      obtain rfl : UInt64.ofNat n = count := by simpa using h
      exact UInt64.toNat_ofNat_of_lt' hn
  case isFalse => cases h

theorem exists_total {n : ℕ} (h : n < 2 ^ 64) : ∃ count, total n = .ok count :=
  ⟨.ofNat n, if_pos h⟩

theorem total_of_le {n : ℕ} (h : ¬n < 2 ^ 64) : total n = .fault .overflow := if_neg h

@[simp] theorem total_toNat (n : UInt64) : total n.toNat = .ok n := by
  rw [total, if_pos n.toNat_lt, UInt64.ofNat_toNat]

theorem add_eq_total (m n : UInt64) : add m n = total (m.toNat + n.toNat) := by
  rw [total, UInt64.ofNat_add, UInt64.ofNat_toNat, UInt64.ofNat_toNat]
  rfl

theorem mul_eq_total (m n : UInt64) : mul m n = total (m.toNat * n.toNat) := by
  rw [total, UInt64.ofNat_mul, UInt64.ofNat_toNat, UInt64.ofNat_toNat]
  rfl

/-- What is too large stays too large when more is added. -/
theorem total_bind {n more : ℕ} {next : UInt64 → Outcome UInt64}
    (h : ∀ count, next count = total (count.toNat + more)) :
    total n >>= next = total (n + more) := by
  by_cases hn : n < 2 ^ 64
  · obtain ⟨count, hcount⟩ := exists_total hn
    rw [hcount, Outcome.ok_bind, h, toNat_of_total hcount]
  · rw [total_of_le hn, total_of_le (by omega)]
    rfl

theorem foldlM_total {α : Type} {step : UInt64 → α → Outcome UInt64} {weight : α → ℕ} {xs : List α}
    (h : ∀ x ∈ xs, ∀ n, step n x = total (n.toNat + weight x)) (n : UInt64) :
    xs.foldlM step n = total (n.toNat + (xs.map weight).sum) := by
  induction xs generalizing n with
  | nil => simp
  | cons x xs ih =>
      rw [List.forall_mem_cons] at h
      rw [List.foldlM_cons, h.1 n, total_bind (ih h.2), List.map_cons, List.sum_cons, add_assoc]

theorem foldl_saturatingAdd {α : Type} (weight : α → UInt64) (xs : List α) (n : ℕ) :
    xs.foldl (fun count x => saturatingAdd count (weight x)) (saturate n) =
      saturate (n + (xs.map fun x => (weight x).toNat).sum) := by
  induction xs generalizing n with
  | nil => simp
  | cons x xs ih =>
      have hstep : saturatingAdd (saturate n) (weight x) = saturate (n + (weight x).toNat) := by
        apply UInt64.toNat.inj
        simp only [toNat_saturatingAdd, toNat_saturate]
        omega
      rw [List.foldl_cons, hstep, ih, List.map_cons, List.sum_cons, add_assoc]

end Count

namespace Price

/-! ### Exact numbers -/

/-- The numbers that a report counts, without a bound. -/
@[ext]
structure Tally where
  instructions : ℕ
  calls : ℕ
  bytes : ℕ
  /-- How often each opcode runs. -/
  runs : String → ℕ

namespace Tally

instance : Zero Tally := ⟨⟨0, 0, 0, 0⟩⟩

instance : Add Tally :=
  ⟨fun s t => ⟨s.instructions + t.instructions, s.calls + t.calls, s.bytes + t.bytes,
    s.runs + t.runs⟩⟩

variable (s t : Tally)

@[simp] theorem add_instructions : (s + t).instructions = s.instructions + t.instructions := rfl

@[simp] theorem add_calls : (s + t).calls = s.calls + t.calls := rfl

@[simp] theorem add_bytes : (s + t).bytes = s.bytes + t.bytes := rfl

@[simp] theorem add_runs : (s + t).runs = s.runs + t.runs := rfl

instance : AddCommMonoid Tally where
  add_assoc x y z := Tally.ext (add_assoc ..) (add_assoc ..) (add_assoc ..) (add_assoc ..)
  zero_add x := Tally.ext (zero_add _) (zero_add _) (zero_add _) (zero_add _)
  add_zero x := Tally.ext (add_zero _) (add_zero _) (add_zero _) (add_zero _)
  add_comm x y := Tally.ext (add_comm ..) (add_comm ..) (add_comm ..) (add_comm ..)
  nsmul := nsmulRec

/-- Are the instructions and the calls counts? -/
def Fits : Prop := t.instructions < 2 ^ 64 ∧ t.calls < 2 ^ 64

instance : Decidable t.Fits := inferInstanceAs (Decidable (_ ∧ _))

/-- Every run of an opcode is among the instructions. -/
def Covers : Prop := ∀ opcode, t.runs opcode ≤ t.instructions

variable {s t}

theorem Fits.left (h : (s + t).Fits) : s.Fits := by
  simp only [Fits, add_instructions, add_calls] at h ⊢
  omega

theorem Covers.add (hs : s.Covers) (ht : t.Covers) : (s + t).Covers :=
  fun opcode => Nat.add_le_add (hs opcode) (ht opcode)

end Tally

/-- The runs of an opcode among the shares. -/
def runsOf (shares : List (String × OpcodeShare)) (opcode : String) : ℕ :=
  ((shares.filter (·.1 == opcode)).map (·.2.count.toNat)).sum

theorem runsOf_cons (entry : String × OpcodeShare) (shares : List (String × OpcodeShare))
    (opcode : String) : runsOf (entry :: shares) opcode =
      (if entry.1 = opcode then entry.2.count.toNat else 0) + runsOf shares opcode := by
  by_cases h : entry.1 = opcode <;> simp [runsOf, h]

/-- The report counts exactly these numbers, but for the bytes that are too many. -/
structure Report.Counts (r : Report) (t : Tally) : Prop where
  instructions : r.instructions.toNat = t.instructions
  calls : r.mpiCalls.toNat = t.calls
  bytes : r.commAmount = Count.saturate t.bytes
  runs : ∀ d, r.breakdown = some d → ∀ opcode, runsOf d.opcodes opcode = t.runs opcode

theorem Report.Counts.fits {r : Report} {t : Tally} (h : r.Counts t) : t.Fits :=
  ⟨h.instructions ▸ r.instructions.toNat_lt, h.calls ▸ r.mpiCalls.toNat_lt⟩

theorem Report.counts_empty (verbose : Bool) : (empty verbose).Counts 0 where
  instructions := rfl
  calls := rfl
  bytes := rfl
  runs d hd _ := by
    cases verbose with
    | false => cases hd
    | true =>
        obtain rfl : Breakdown.empty = d := by simpa [empty] using hd
        rfl

/-- A report that counts so much, or a fault if that cannot be counted. -/
def Tally.Decides (t : Tally) (x : Outcome Report) : Prop :=
  if t.Fits then ∃ r, x = .ok r ∧ r.Counts t else x = .fault .overflow

namespace Tally.Decides

variable {t : Tally} {x : Outcome Report} {r : Report}

theorem exists_report (h : t.Decides x) (ht : t.Fits) : ∃ r, x = .ok r ∧ r.Counts t := by
  rwa [Decides, if_pos ht] at h

theorem counts (h : t.Decides x) (hr : x = .ok r) : r.Counts t := by
  unfold Decides at h
  split at h
  case isTrue =>
      obtain ⟨r', hr', hcounts⟩ := h
      obtain rfl := Except.ok.inj (hr.symm.trans hr')
      exact hcounts
  case isFalse => cases h.symm.trans hr

end Tally.Decides

/-! ### Opcodes -/

/-- Shares with more runs, if those fit. -/
def AddsRuns (shares : List (String × OpcodeShare)) (more : String → ℕ)
    (x : Outcome (List (String × OpcodeShare))) : Prop :=
  (∀ opcode, runsOf shares opcode + more opcode < 2 ^ 64) →
    ∃ shares', x = .ok shares' ∧
      ∀ opcode, runsOf shares' opcode = runsOf shares opcode + more opcode

theorem foldlM_addsRuns {α : Type}
    {step : List (String × OpcodeShare) → α → Outcome (List (String × OpcodeShare))}
    {more : α → String → ℕ} {xs : List α}
    (h : ∀ x ∈ xs, ∀ shares, AddsRuns shares (more x) (step shares x))
    (shares : List (String × OpcodeShare)) :
    AddsRuns shares (fun opcode => (xs.map (more · opcode)).sum) (xs.foldlM step shares) := by
  induction xs generalizing shares with
  | nil => exact fun _ => ⟨shares, rfl, fun _ => rfl⟩
  | cons x xs ih =>
      rw [List.forall_mem_cons] at h
      intro hfit
      simp only [List.map_cons, List.sum_cons, ← add_assoc] at hfit
      obtain ⟨mid, hmid, hruns⟩ := h.1 shares fun opcode => by
        have hopcode := hfit opcode
        omega
      obtain ⟨shares', hshares', hruns'⟩ := ih h.2 mid fun opcode => by
        rw [hruns]
        exact hfit opcode
      refine ⟨shares', by rw [List.foldlM_cons, hmid, Outcome.ok_bind, hshares'], fun opcode => ?_⟩
      simp only [hruns', hruns, List.map_cons, List.sum_cons, add_assoc]

/-- To change the share of one opcode adds to the runs of that opcode only. -/
theorem addsRuns_revise {opcode : String} {n : ℕ}
    {change : Option OpcodeShare → Outcome OpcodeShare}
    (hchange : ∀ share : Option OpcodeShare, (share.getD ⟨0, 0⟩).count.toNat + n < 2 ^ 64 →
      ∃ share', change share = .ok share' ∧
        share'.count.toNat = (share.getD ⟨0, 0⟩).count.toNat + n)
    (shares : List (String × OpcodeShare)) :
    AddsRuns shares (fun other => if opcode = other then n else 0)
      (revise opcode change shares) := by
  intro hfit
  beta_reduce at hfit ⊢
  have hnew : ∃ fresh, change none = .ok fresh ∧ fresh.count.toNat = n := by
    have hn := hfit opcode
    rw [if_pos rfl] at hn
    have hzero : (0 : UInt64).toNat = 0 := rfl
    simpa [hzero] using hchange none (by simp only [Option.getD_none, hzero]; omega)
  obtain ⟨fresh, hfresh, hcount⟩ := hnew
  induction shares with
  | nil =>
      refine ⟨[(opcode, fresh)], by rw [revise, hfresh]; rfl, fun other => ?_⟩
      rw [runsOf_cons, hcount, add_comm]
  | cons entry shares ih =>
      obtain ⟨name, share⟩ := entry
      simp only [runsOf_cons] at hfit
      rw [revise]
      split
      case isTrue =>
          refine ⟨(opcode, fresh) :: (name, share) :: shares, by rw [hfresh]; rfl, fun other => ?_⟩
          rw [runsOf_cons, hcount, add_comm]
      case isFalse =>
          split
          case isTrue hname =>
              have hsum := hfit opcode
              rw [if_pos hname, if_pos rfl] at hsum
              obtain ⟨share', hshare', hcount'⟩ :=
                hchange (some share) (by rw [Option.getD_some]; omega)
              refine ⟨(name, share') :: shares, by rw [hshare']; rfl, fun other => ?_⟩
              simp only [runsOf_cons, hname, hcount', Option.getD_some]
              split <;> omega
          case isFalse =>
              obtain ⟨shares', hshares', hruns⟩ := ih fun other => by
                have hother := hfit other
                omega
              refine ⟨(name, share) :: shares', by rw [hshares']; rfl, fun other => ?_⟩
              simp only [runsOf_cons, hruns, add_assoc]

theorem addsRuns_addOpcode (costs : InstructionCosts) (n : UInt64) (opcode : String)
    (shares : List (String × OpcodeShare)) :
    AddsRuns shares (fun other => if opcode = other then n.toNat else 0)
      (Analyzer.addOpcode costs n shares opcode) := by
  refine addsRuns_revise (fun share hfit => ?_) shares
  obtain ⟨count, hcount⟩ := Count.exists_total hfit
  simp only [Count.add_eq_total, hcount]
  exact ⟨_, rfl, Count.toNat_of_total hcount⟩

theorem sum_map_ite_count (n : ℕ) (opcodes : List String) (opcode : String) :
    (opcodes.map fun other => if other = opcode then n else 0).sum = n * opcodes.count opcode := by
  induction opcodes with
  | nil => rfl
  | cons other opcodes ih =>
      rw [List.map_cons, List.sum_cons, ih, List.count_cons]
      by_cases h : other = opcode <;> simp [h, Nat.mul_add, add_comm]

theorem addsRuns_addOpcodes (costs : InstructionCosts) (entry : Block × UInt64)
    (shares : List (String × OpcodeShare)) :
    AddsRuns shares (fun opcode => entry.2.toNat * entry.1.opcodes.count opcode)
      (Analyzer.addOpcodes costs shares entry) := by
  have h := foldlM_addsRuns
    (fun opcode (_ : opcode ∈ entry.1.opcodes) => addsRuns_addOpcode costs entry.2 opcode) shares
  simp only [sum_map_ite_count] at h
  exact h

namespace Analyzer

variable (a : Analyzer) (b : Binding)

/-- The blocks that are not ignored, with their executions. -/
def blocks : List (Block × UInt64) := (a.counted b).flatMap (·.blocks)

/-- The trapped calls that are not ignored. -/
def calls : List TrappedCall := b.trapped.filter fun call => !a.isIgnored b call.site

/-- What a source of a kind counts. -/
def tally : Kind → Tally
  | .block => {
      instructions := ((a.blocks b).map fun entry => entry.2.toNat * entry.1.opcodes.length).sum
      calls := 0
      bytes := 0
      runs := fun opcode =>
        ((a.blocks b).map fun entry => entry.2.toNat * entry.1.opcodes.count opcode).sum }
  | .mpi => {
      instructions := 0
      calls := ((a.calls b).map fun call => (b.blockFrequency call).toNat).sum
      bytes := ((a.calls b).map fun call => call.bytes.toNat).sum
      runs := 0 }
  | .libcall => 0

/-- Each kind of source counts once, however many sources there are of it. -/
def total : Tally := ((a.sources.map Source.kind).dedup.map (a.tally b)).sum

variable {a b}

theorem covers_tally (kind : Kind) : (a.tally b kind).Covers := by
  intro opcode
  cases kind with
  | block => exact List.sum_le_sum fun entry _ => Nat.mul_le_mul_left _ List.count_le_length
  | mpi => exact Nat.zero_le _
  | libcall => exact Nat.zero_le _

/-! ### One source -/

variable {r : Report} {t : Tally}

theorem mem_blocks {entry : Block × UInt64} (h : entry ∈ a.blocks b) :
    ∃ f ∈ b.program.functions, entry.1 ∈ f.blocks := by
  obtain ⟨counted, hcounted, hentry⟩ := List.mem_flatMap.mp h
  obtain ⟨⟨f, i⟩, hf, rfl⟩ := List.mem_map.mp hcounted
  obtain ⟨⟨block, id⟩, hblock, rfl⟩ := List.mem_map.mp hentry
  have hdefined := List.mem_of_mem_filter (List.mem_of_mem_filter hf)
  exact ⟨f, List.fst_mem_of_mem_zipIdx hdefined, List.fst_mem_of_mem_zipIdx hblock⟩

theorem foldlM_addInstructions (hsize : ∀ entry ∈ a.blocks b, entry.1.opcodes.length < 2 ^ 64)
    (n : UInt64) : (a.blocks b).foldlM addInstructions n =
      Count.total (n.toNat + (a.tally b .block).instructions) := by
  refine Count.foldlM_total (fun entry hentry n => ?_) n
  have hlength : entry.1.opcodes.length.toUInt64.toNat = entry.1.opcodes.length :=
    UInt64.toNat_ofNat_of_lt' (hsize entry hentry)
  rw [addInstructions, Count.mul_eq_total, hlength, add_comm]
  refine Count.total_bind fun count => ?_
  rw [Count.add_eq_total, add_comm]

theorem decides_priceBlocks (costs : InstructionCosts)
    (hsize : ∀ entry ∈ a.blocks b, entry.1.opcodes.length < 2 ^ 64) (hr : r.Counts t)
    (ht : t.Covers) : (t + a.tally b .block).Decides (a.priceBlocks b costs r) := by
  have hsum := foldlM_addInstructions hsize r.instructions
  rw [hr.instructions, blocks] at hsum
  simp only [priceBlocks, hsum]
  unfold Tally.Decides
  split
  case isTrue hfits =>
      obtain ⟨instructions, hinstructions⟩ := Count.exists_total hfits.1
      have hcount := Count.toNat_of_total hinstructions
      rw [Tally.add_instructions] at hinstructions
      rw [hinstructions, Outcome.ok_bind]
      cases hbreakdown : r.breakdown with
      | none =>
          exact ⟨_, rfl, hcount, hr.calls, hr.bytes, fun d hd => nomatch hd⟩
      | some d =>
          have hruns := hr.runs d hbreakdown
          obtain ⟨opcodes, hopcodes, hruns'⟩ := foldlM_addsRuns
            (fun entry (_ : entry ∈ a.blocks b) => addsRuns_addOpcodes costs entry) d.opcodes
            fun opcode => by
              rw [hruns]
              exact ((ht.add (covers_tally .block)) opcode).trans_lt hfits.1
          rw [blocks] at hopcodes
          simp only [Option.mapM_some, hopcodes]
          refine ⟨_, rfl, hcount, hr.calls, hr.bytes, fun d' hd' opcode => ?_⟩
          obtain rfl := Option.some.inj hd'
          rw [hruns', hruns]
          rfl
  case isFalse hfits =>
      have hlarge : ¬t.instructions + (a.tally b .block).instructions < 2 ^ 64 :=
        fun h => hfits ⟨h, hr.fits.2⟩
      rw [Count.total_of_le hlarge]
      rfl

theorem decides_priceCalls (costs : CommCosts) (hr : r.Counts t) :
    (t + a.tally b .mpi).Decides (a.priceCalls b costs r) := by
  have hsum : (a.calls b).foldlM (fun n call => Count.add n (b.blockFrequency call)) r.mpiCalls =
      Count.total (t.calls + (a.tally b .mpi).calls) := by
    rw [Count.foldlM_total fun call _ n => Count.add_eq_total n (b.blockFrequency call), hr.calls]
    rfl
  have hbytes : (a.calls b).foldl (fun n call => Count.saturatingAdd n call.bytes) r.commAmount =
      Count.saturate (t.bytes + (a.tally b .mpi).bytes) := by
    rw [hr.bytes, Count.foldl_saturatingAdd TrappedCall.bytes]
    rfl
  rw [calls] at hsum hbytes
  simp only [priceCalls, hsum, hbytes]
  unfold Tally.Decides
  split
  case isTrue hfits =>
      obtain ⟨mpiCalls, hcalls⟩ := Count.exists_total hfits.2
      have hcount := Count.toNat_of_total hcalls
      rw [Tally.add_calls] at hcalls
      rw [hcalls, Outcome.ok_bind]
      refine ⟨_, rfl, hr.instructions, hcount, rfl, fun d hd opcode => ?_⟩
      obtain ⟨d, hbreakdown, rfl⟩ := Option.map_eq_some_iff.mp hd
      exact hr.runs d hbreakdown opcode
  case isFalse hfits =>
      have hlarge : ¬t.calls + (a.tally b .mpi).calls < 2 ^ 64 := fun h => hfits ⟨hr.fits.1, h⟩
      rw [Count.total_of_le hlarge]
      rfl

/-- A source adds its tally, or cannot. -/
theorem decides_price (hsize : ∀ entry ∈ a.blocks b, entry.1.opcodes.length < 2 ^ 64)
    (hr : r.Counts t) (ht : t.Covers) (s : Source) :
    (t + a.tally b s.kind).Decides (a.price b r s) := by
  cases s with
  | block costs => exact decides_priceBlocks costs hsize hr ht
  | mpi costs => exact decides_priceCalls costs hr
  | libcall costs =>
      have hadd : t + a.tally b .libcall = t := add_zero t
      rw [Source.kind, hadd, Tally.Decides, if_pos hr.fits]
      exact ⟨_, rfl, hr.instructions, hr.calls, hr.bytes, hr.runs⟩

/-! ### All sources -/

theorem decides_foldlM (hsize : ∀ entry ∈ a.blocks b, entry.1.opcodes.length < 2 ^ 64)
    (sources : List Source) (hr : r.Counts t) (ht : t.Covers) :
    (t + (sources.map fun s => a.tally b s.kind).sum).Decides (sources.foldlM (a.price b) r) := by
  induction sources generalizing r t with
  | nil =>
      rw [List.map_nil, List.sum_nil, add_zero, Tally.Decides, if_pos hr.fits]
      exact ⟨r, rfl, hr⟩
  | cons s sources ih =>
      have hstep := decides_price hsize hr ht s
      rw [List.map_cons, List.sum_cons, ← add_assoc, List.foldlM_cons]
      by_cases hfits : (t + a.tally b s.kind).Fits
      · obtain ⟨mid, hmid, hcounts⟩ := hstep.exists_report hfits
        rw [hmid]
        exact ih hcounts (ht.add (covers_tally s.kind))
      · rw [Tally.Decides, if_neg hfits] at hstep
        rw [hstep, Tally.Decides, if_neg fun h => hfits h.left]
        rfl

theorem mem_kinds_firsts {kind : Kind} (sources : List Source) (seen : List Kind) :
    kind ∈ (firsts seen sources).map Source.kind ↔
      kind ∈ sources.map Source.kind ∧ kind ∉ seen := by
  induction sources generalizing seen with
  | nil => simp [firsts]
  | cons s sources ih =>
      rw [firsts]
      split
      case isTrue hs =>
          rw [ih, List.map_cons, List.mem_cons]
          refine ⟨fun h => ⟨.inr h.1, h.2⟩, fun h => ⟨h.1.resolve_left ?_, h.2⟩⟩
          rintro rfl
          exact h.2 hs
      case isFalse hs =>
          rw [List.map_cons, List.mem_cons, ih, List.map_cons, List.mem_cons, List.mem_cons]
          by_cases hkind : kind = s.kind
          · simp [hkind, hs]
          · simp [hkind]

theorem nodup_kinds_firsts (sources : List Source) (seen : List Kind) :
    ((firsts seen sources).map Source.kind).Nodup := by
  induction sources generalizing seen with
  | nil => exact List.nodup_nil
  | cons s sources ih =>
      rw [firsts]
      split
      case isTrue => exact ih seen
      case isFalse =>
          rw [List.map_cons, List.nodup_cons, mem_kinds_firsts]
          exact ⟨fun h => h.2 List.mem_cons_self, ih _⟩

theorem sum_tally_firsts :
    ((firsts [] a.sources).map fun s => a.tally b s.kind).sum = a.total b := by
  have hkinds : ((firsts [] a.sources).map Source.kind).Perm (a.sources.map Source.kind).dedup := by
    refine (List.perm_ext_iff_of_nodup (nodup_kinds_firsts _ _) (List.nodup_dedup _)).mpr ?_
    intro kind
    simp [mem_kinds_firsts]
  have hsum := (hkinds.map (a.tally b)).sum_eq
  rw [List.map_map] at hsum
  exact hsum

/-- A run is decided if the blocks that are counted are not too long. -/
theorem decides_total (hsize : ∀ entry ∈ a.blocks b, entry.1.opcodes.length < 2 ^ 64) :
    (a.total b).Decides (a.run b) := by
  have h := decides_foldlM hsize (firsts [] a.sources) (Report.counts_empty a.verbose)
    fun _ => Nat.le_refl 0
  rwa [zero_add, sum_tally_firsts] at h

/-- There is a report exactly if the exact numbers of instructions and calls are counts, and then
it counts those numbers. -/
theorem run_decides (hsize : ∀ f ∈ b.program.functions, ∀ block ∈ f.blocks,
    block.opcodes.length < 2 ^ 64) : (a.total b).Decides (a.run b) := by
  refine decides_total fun entry hentry => ?_
  obtain ⟨f, hf, hblock⟩ := mem_blocks hentry
  exact hsize f hf entry.1 hblock

end Analyzer

/-! ### A block of two instructions -/

/-- An addition and the return. -/
def addOnce : Program where
  functions := [⟨"main", [⟨"entry", [.op "add" (some "i") [.var "i", .const 1]], .ret⟩]⟩]
  globals := []

def verboseBlocks : Analyzer := ⟨[.block ⟨.empty, 0⟩], [], true⟩

/-- Three calls run six instructions. -/
theorem run_decides_addOnce :
    ∃ b, ({ Profile.empty with edgeCounts := some [3] }).bind addOnce = .ok b ∧
      (∀ f ∈ b.program.functions, ∀ block ∈ f.blocks, block.opcodes.length < 2 ^ 64) ∧
      (verboseBlocks.total b).instructions = 6 ∧ (verboseBlocks.total b).runs "add" = 3 ∧
      (verboseBlocks.total b).Decides (verboseBlocks.run b) := by
  refine ⟨_, rfl, ?_, rfl, rfl, Analyzer.run_decides ?_⟩ <;> decide

/-- A profile that binds to a valid program but has no report: twice the greatest count is none. -/
theorem run_not_decided :
    ¬∀ (p : Program) (profile : Profile) (b : Binding) (a : Analyzer), p.IsValid →
      profile.bind p = .ok b → ∃ r, a.run b = .ok r := by
  intro h
  obtain ⟨r, hr⟩ := h addOnce { Profile.empty with edgeCounts := some [maxCount] } _ verboseBlocks
    (by decide) rfl
  cases hr

end Price

end FlowProfile
