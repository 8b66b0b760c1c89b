import FlowProfile.Proofs.Price.Breakdown
import FlowProfile.Proofs.Profile.SumBinding

/-!
# Reports of merged profiles

A report of two profiles that were merged counts what the reports of both count together, total by
total, opcode by opcode and call by call. Merging stops every counter at the greatest count, so that
is certain of reports only whose totals stay below it: then no counter has got there that they read.
-/

namespace FlowProfile

namespace Count

section

variable {ι : Type} {places : List ι} {f g h : ι → UInt64}

/-- Counts whose weighted sum stays below the greatest count were not stopped at it. -/
theorem toNat_eq_add_of_sum_lt (weight : ι → ℕ)
    (hadd : ∀ q ∈ places, h q = saturatingAdd (f q) (g q)) (hweight : ∀ q ∈ places, 0 < weight q)
    (hsum : (places.map fun q => (h q).toNat * weight q).sum < maxCount.toNat ∨
      (places.map fun q => (f q).toNat * weight q).sum +
        (places.map fun q => (g q).toNat * weight q).sum < maxCount.toNat) :
    ∀ q ∈ places, (h q).toNat = (f q).toNat + (g q).toNat := by
  have hle : ∀ (count : ι → UInt64), ∀ q ∈ places,
      (count q).toNat ≤ (places.map fun q => (count q).toNat * weight q).sum := fun count q hq =>
    (Nat.le_mul_of_pos_right _ (hweight q hq)).trans
      (List.le_sum_of_mem (List.mem_map.mpr ⟨q, hq, rfl⟩))
  intro q hq
  have hmax : maxCount.toNat = 2 ^ 64 - 1 := rfl
  have hf := hle f q hq
  have hg := hle g q hq
  have hh := hle h q hq
  rw [hadd q hq, toNat_saturatingAdd] at hh ⊢
  omega

theorem toNat_eq_add_of_total_lt (hadd : ∀ q ∈ places, h q = saturatingAdd (f q) (g q))
    (hsum : (places.map fun q => (h q).toNat).sum < maxCount.toNat ∨
      (places.map fun q => (f q).toNat).sum + (places.map fun q => (g q).toNat).sum <
        maxCount.toNat) :
    ∀ q ∈ places, (h q).toNat = (f q).toNat + (g q).toNat :=
  toNat_eq_add_of_sum_lt (fun _ => 1) hadd (fun _ _ => Nat.one_pos)
    (by simpa only [Nat.mul_one] using hsum)

/-- Sums of sums, place by place. -/
theorem sum_eq_add {f g h : ι → ℕ} (hadd : ∀ q ∈ places, h q = f q + g q) :
    (places.map h).sum = (places.map f).sum + (places.map g).sum := by
  rw [← List.sum_map_add]
  exact congrArg List.sum (List.map_congr_left hadd)

end

end Count

namespace TrappedCall

theorem AreSums.filter {sums cs ds : List TrappedCall} (h : AreSums sums cs ds)
    (keep : Comm.Site → Bool) :
    AreSums (sums.filter (keep ·.site)) (cs.filter (keep ·.site)) (ds.filter (keep ·.site)) := by
  obtain ⟨pairs, hplace, rfl, rfl, rfl⟩ := h
  refine ⟨pairs.filter (keep ·.1.site),
    fun pair hpair => hplace pair (List.mem_of_mem_filter hpair), ?_, ?_, ?_⟩
  · rw [List.filter_map]
    rfl
  · rw [List.filter_map]
    refine congrArg (List.map Prod.snd) (List.filter_congr fun pair hpair => ?_)
    exact congrArg keep (hplace pair hpair).site
  · rw [List.filter_map]
    rfl

end TrappedCall

namespace Price

namespace Tally

/-- Nothing that a report counts reaches the greatest count. -/
structure IsBelow (t : Tally) : Prop where
  instructions : t.instructions < maxCount.toNat
  calls : t.calls < maxCount.toNat
  bytes : t.bytes < maxCount.toNat

variable {s t : Tally}

theorem IsBelow.left (h : (s + t).IsBelow) : s.IsBelow := by
  obtain ⟨hinstructions, hcalls, hbytes⟩ := h
  rw [add_instructions] at hinstructions
  rw [add_calls] at hcalls
  rw [add_bytes] at hbytes
  constructor <;> omega

theorem IsBelow.right (h : (s + t).IsBelow) : t.IsBelow := (add_comm s t ▸ h).left

theorem IsBelow.fits (h : t.IsBelow) : t.Fits :=
  ⟨h.instructions.trans (by decide), h.calls.trans (by decide)⟩

end Tally

/-- Entries with the labels of two other lists, and with the sums of their counts. -/
structure AddsUp {α β : Type} (label : α → β) (count : α → UInt64) (sums xs ys : List α) :
    Prop where
  left : xs.map label = sums.map label
  right : ys.map label = sums.map label
  counts : sums.map (fun s => (count s).toNat) =
    List.zipWith (· + ·) (xs.map fun x => (count x).toNat) (ys.map fun y => (count y).toNat)

/-- What a breakdown tells of a call but for its counts. -/
def CallShare.label (share : CallShare) : ℕ × String × BlockId × String :=
  (share.index, share.function, share.block, share.callee)

structure Breakdown.IsSum (sum x y : Breakdown) : Prop where
  opcodes : AddsUp Prod.fst (·.2.count) sum.opcodes x.opcodes y.opcodes
  calls : AddsUp CallShare.label CallShare.frequency sum.calls x.calls y.calls

/-- All counts are those of two other reports together. -/
structure Report.IsSum (sum x y : Report) : Prop where
  instructions : sum.instructions.toNat = x.instructions.toNat + y.instructions.toNat
  mpiCalls : sum.mpiCalls.toNat = x.mpiCalls.toNat + y.mpiCalls.toNat
  commAmount : sum.commAmount.toNat = x.commAmount.toNat + y.commAmount.toNat
  breakdown : ∀ d, sum.breakdown = some d →
    ∃ dx dy, x.breakdown = some dx ∧ y.breakdown = some dy ∧ d.IsSum dx dy

/-- No total reaches the greatest count. -/
structure Report.IsBelow (r : Report) : Prop where
  instructions : r.instructions < maxCount
  mpiCalls : r.mpiCalls < maxCount
  commAmount : r.commAmount < maxCount

/-- No total of two reports together reaches the greatest count. -/
structure Report.IsBelowWith (x y : Report) : Prop where
  instructions : x.instructions.toNat + y.instructions.toNat < maxCount.toNat
  mpiCalls : x.mpiCalls.toNat + y.mpiCalls.toNat < maxCount.toNat
  commAmount : x.commAmount.toNat + y.commAmount.toNat < maxCount.toNat

namespace Report.Counts

variable {x y r : Report} {s t : Tally}

theorem toNat_commAmount (h : r.Counts t) (ht : t.IsBelow) : r.commAmount.toNat = t.bytes := by
  have hbytes := ht.bytes
  have hmax : maxCount.toNat = 2 ^ 64 - 1 := rfl
  rw [h.bytes, Count.toNat_saturate]
  omega

theorem isBelow_iff (h : r.Counts t) : r.IsBelow ↔ t.IsBelow := by
  constructor
  · rintro ⟨hinstructions, hcalls, hbytes⟩
    rw [UInt64.lt_iff_toNat_lt] at hinstructions hcalls hbytes
    have hmax : maxCount.toNat = 2 ^ 64 - 1 := rfl
    rw [h.bytes, Count.toNat_saturate] at hbytes
    exact ⟨h.instructions ▸ hinstructions, h.calls ▸ hcalls, by omega⟩
  · intro ht
    refine ⟨?_, ?_, ?_⟩ <;> rw [UInt64.lt_iff_toNat_lt]
    · exact h.instructions ▸ ht.instructions
    · exact h.calls ▸ ht.calls
    · exact h.toNat_commAmount ht ▸ ht.bytes

theorem isBelow_add (hx : x.Counts s) (hy : y.Counts t) (h : x.IsBelowWith y) :
    (s + t).IsBelow := by
  obtain ⟨hinstructions, hcalls, hbytes⟩ := h
  have hmax : maxCount.toNat = 2 ^ 64 - 1 := rfl
  rw [hx.bytes, hy.bytes, Count.toNat_saturate, Count.toNat_saturate] at hbytes
  rw [hx.instructions, hy.instructions] at hinstructions
  rw [hx.calls, hy.calls] at hcalls
  refine ⟨hinstructions, hcalls, ?_⟩
  rw [Tally.add_bytes]
  omega

end Report.Counts

/-! ### Shares -/

/-- Shares of the same opcodes add up if the runs of each opcode do. -/
theorem addsUp_opcodes {names : List String} (hnames : names.Pairwise (· < ·))
    {sums xs ys : List (String × OpcodeShare)} (hsums : sums.map Prod.fst = names)
    (hxs : xs.map Prod.fst = names) (hys : ys.map Prod.fst = names)
    (hruns : ∀ opcode, runsOf sums opcode = runsOf xs opcode + runsOf ys opcode) :
    AddsUp Prod.fst (·.2.count) sums xs ys := by
  have hcounts : ∀ shares : List (String × OpcodeShare), shares.map Prod.fst = names →
      shares.map (fun share => share.2.count.toNat) = names.map (runsOf shares) := by
    rintro shares rfl
    rw [List.map_map]
    exact List.map_congr_left fun share hshare => (runsOf_of_mem hnames hshare).symm
  refine ⟨hxs.trans hsums.symm, hys.trans hsums.symm, ?_⟩
  rw [hcounts sums hsums, hcounts xs hxs, hcounts ys hys, List.zipWith_map, List.zipWith_self]
  exact List.map_congr_left fun opcode _ => hruns opcode

namespace Analyzer

variable {a : Analyzer} {b x y z : Binding} {r : Report} {d : Breakdown}

/-! ### Places -/

/-- The blocks that are not ignored, each with its function and its place there. -/
def places (a : Analyzer) (p : Program) : List (Block × ℕ × BlockId) :=
  (p.definedFunctions.filter fun (f, _) => f.name ∉ a.ignore).flatMap fun (f, i) =>
    f.blocks.zipIdx.map fun (block, id) => (block, i, id)

theorem blocks_eq (a : Analyzer) (b : Binding) : a.blocks b =
    (a.places b.program).map fun q => (q.1, b.executionCount q.2.1 q.2.2) := by
  simp only [blocks, counted, places, List.flatMap_map, List.map_flatMap, List.map_map]
  rfl

theorem length_opcodes_pos (block : Block) : 0 < block.opcodes.length := by
  simp [Block.opcodes]

theorem calls_areSums (h : z.IsSum x y) (a : Analyzer) :
    TrappedCall.AreSums (a.calls z) (a.calls x) (a.calls y) := by
  have hx : a.isIgnored x = a.isIgnored z := by
    funext site
    rw [isIgnored_eq, isIgnored_eq, h.program.1]
  have hy : a.isIgnored y = a.isIgnored z := by
    funext site
    rw [isIgnored_eq, isIgnored_eq, h.program.2]
  rw [calls, calls, calls, hx, hy]
  exact h.trapped.filter fun site => !a.isIgnored z site

/-! ### Tallies -/

theorem tally_block (a : Analyzer) (b : Binding) : a.tally b .block = {
    instructions := ((a.places b.program).map fun q =>
      (b.executionCount q.2.1 q.2.2).toNat * q.1.opcodes.length).sum
    calls := 0
    bytes := 0
    runs := fun opcode => ((a.places b.program).map fun q =>
      (b.executionCount q.2.1 q.2.2).toNat * q.1.opcodes.count opcode).sum } := by
  simp only [tally, blocks_eq, List.map_map]
  rfl

theorem tally_block_sum (h : z.IsSum x y) (hbelow : (a.tally z .block).IsBelow ∨
    (a.tally x .block + a.tally y .block).IsBelow) :
    a.tally z .block = a.tally x .block + a.tally y .block := by
  simp only [tally_block, h.program.1, h.program.2] at hbelow ⊢
  have hcounts := Count.toNat_eq_add_of_sum_lt (fun q : Block × ℕ × BlockId => q.1.opcodes.length)
    (fun q _ => h.executions q.2.1 q.2.2) (fun q _ => length_opcodes_pos q.1)
    (hbelow.imp (·.instructions) (·.instructions))
  have hweighted : ∀ weight : Block → ℕ, ∀ q ∈ a.places z.program,
      (z.executionCount q.2.1 q.2.2).toNat * weight q.1 =
        (x.executionCount q.2.1 q.2.2).toNat * weight q.1 +
          (y.executionCount q.2.1 q.2.2).toNat * weight q.1 := by
    intro weight q hq
    rw [hcounts q hq, Nat.add_mul]
  refine Tally.ext ?_ rfl rfl (funext fun opcode => ?_)
  · exact Count.sum_eq_add (hweighted (·.opcodes.length))
  · exact Count.sum_eq_add (hweighted (·.opcodes.count opcode))

theorem tally_mpi_sum (h : z.IsSum x y) (hbelow : (a.tally z .mpi).IsBelow ∨
    (a.tally x .mpi + a.tally y .mpi).IsBelow) :
    a.tally z .mpi = a.tally x .mpi + a.tally y .mpi := by
  obtain ⟨pairs, hplace, hx, hy, hz⟩ := calls_areSums h a
  simp only [tally, hx, hy, hz, List.map_map] at hbelow ⊢
  have hcalls := Count.toNat_eq_add_of_total_lt
    (fun pair hpair => h.blockFrequency (hplace pair hpair))
    (hbelow.imp (·.calls) (·.calls))
  have hbytes := Count.toNat_eq_add_of_total_lt
    (fun (pair : TrappedCall × TrappedCall) (_ : pair ∈ pairs) => rfl)
    (hbelow.imp (·.bytes) (·.bytes))
  exact Tally.ext rfl (Count.sum_eq_add hcalls) (Count.sum_eq_add hbytes) rfl

/-- A kind of source counts in a sum of bindings what it counts in both together. -/
theorem tally_sum (h : z.IsSum x y) (kind : Kind)
    (hbelow : (a.tally z kind).IsBelow ∨ (a.tally x kind + a.tally y kind).IsBelow) :
    a.tally z kind = a.tally x kind + a.tally y kind := by
  cases kind with
  | block => exact tally_block_sum h hbelow
  | mpi => exact tally_mpi_sum h hbelow
  | libcall => exact (add_zero 0).symm

theorem sum_tallies (h : z.IsSum x y) (kinds : List Kind)
    (hbelow : (kinds.map (a.tally z)).sum.IsBelow ∨
      ((kinds.map (a.tally x)).sum + (kinds.map (a.tally y)).sum).IsBelow) :
    (kinds.map (a.tally z)).sum =
      (kinds.map (a.tally x)).sum + (kinds.map (a.tally y)).sum := by
  induction kinds with
  | nil => exact (add_zero 0).symm
  | cons kind kinds ih =>
      simp only [List.map_cons, List.sum_cons] at hbelow ⊢
      rw [add_add_add_comm] at hbelow ⊢
      rw [tally_sum h kind (hbelow.imp (·.left) (·.left)), ih (hbelow.imp (·.right) (·.right))]

/-- All sources count in a sum of bindings what they count in both together. -/
theorem total_sum (h : z.IsSum x y)
    (hbelow : (a.total z).IsBelow ∨ (a.total x + a.total y).IsBelow) :
    a.total z = a.total x + a.total y :=
  sum_tallies h _ hbelow

/-! ### Reports -/

theorem label_callShare (b : Binding) (estimate : TrappedCall → Binary64) (call : TrappedCall) :
    (callShare b estimate call).label =
      (call.index, functionName b call.site, call.site.block, call.site.callee) := rfl

section

variable {rx ry : Report} {dx dy : Breakdown}

theorem addsUp_calls (h : z.IsSum x y) (hr : a.run z = .ok r) (hrx : a.run x = .ok rx)
    (hry : a.run y = .ok ry) (hd : r.breakdown = some d) (hdx : rx.breakdown = some dx)
    (hdy : ry.breakdown = some dy) (hbelow : r.mpiCalls < maxCount) :
    AddsUp CallShare.label CallShare.frequency d.calls dx.calls dy.calls := by
  by_cases hkind : .mpi ∈ a.sources.map Source.kind
  · obtain ⟨_, hcalls, htotal, -⟩ := exists_estimate_of_run hr hd hkind
    obtain ⟨_, hcallsx, -⟩ := exists_estimate_of_run hrx hdx hkind
    obtain ⟨_, hcallsy, -⟩ := exists_estimate_of_run hry hdy hkind
    obtain ⟨pairs, hplace, hcx, hcy, hcz⟩ := calls_areSums h a
    have hsum : (pairs.map fun pair =>
        (z.blockFrequency (pair.1.add pair.2)).toNat).sum < maxCount.toNat := by
      rw [hcz, List.map_map] at htotal
      exact (Count.toNat_of_total htotal).symm.trans_lt (UInt64.lt_iff_toNat_lt.mp hbelow)
    have hfrequency := Count.toNat_eq_add_of_total_lt
      (fun pair hpair => h.blockFrequency (hplace pair hpair)) (.inl hsum)
    rw [hcalls, hcallsx, hcallsy, hcx, hcy, hcz]
    constructor
    · simp only [List.map_map]
      refine List.map_congr_left fun pair _ => ?_
      simp only [Function.comp_apply, label_callShare, functionName_congr h.program.1]
      rfl
    · simp only [List.map_map]
      refine List.map_congr_left fun pair hpair => ?_
      obtain ⟨hindex, hsite⟩ := hplace pair hpair
      simp only [Function.comp_apply, label_callShare, functionName_congr h.program.2, hindex,
        hsite]
      rfl
    · simp only [List.map_map, List.zipWith_map, List.zipWith_self]
      exact List.map_congr_left hfrequency
  · rw [calls_of_run hr hd hkind, calls_of_run hrx hdx hkind, calls_of_run hry hdy hkind]
    exact ⟨rfl, rfl, rfl⟩

theorem opcodeNames_congr (hprogram : x.program = z.program) :
    a.opcodeNames x = a.opcodeNames z := by
  simp only [opcodeNames, blocks_eq, List.flatMap_map, hprogram]

/-- A report that counts as much as two others together is their sum. -/
theorem isSum_of_counts (h : z.IsSum x y) (hr : a.run z = .ok r) (hrx : a.run x = .ok rx)
    (hry : a.run y = .ok ry) {t s : Tally} (hsum : r.Counts (t + s)) (ht : rx.Counts t)
    (hs : ry.Counts s) (hbelow : r.IsBelow) : r.IsSum rx ry := by
  have htally : (t + s).IsBelow := hsum.isBelow_iff.mp hbelow
  constructor
  · rw [hsum.instructions, ht.instructions, hs.instructions, Tally.add_instructions]
  · rw [hsum.calls, ht.calls, hs.calls, Tally.add_calls]
  · rw [hsum.toNat_commAmount htally, ht.toNat_commAmount htally.left,
      hs.toNat_commAmount htally.right, Tally.add_bytes]
  · intro d hd
    have hverbose := verbose_of_run hr hd
    obtain ⟨dx, hdx⟩ := Option.isSome_iff_exists.mp ((isSome_breakdown_of_run hrx).trans hverbose)
    obtain ⟨dy, hdy⟩ := Option.isSome_iff_exists.mp ((isSome_breakdown_of_run hry).trans hverbose)
    refine ⟨dx, dy, hdx, hdy, ?_, ?_⟩
    · refine addsUp_opcodes (pairwise_opcodeNames a z) (names_of_run hr hd)
        ((names_of_run hrx hdx).trans (opcodeNames_congr h.program.1))
        ((names_of_run hry hdy).trans (opcodeNames_congr h.program.2)) fun opcode => ?_
      rw [hsum.runs d hd, ht.runs dx hdx, hs.runs dy hdy]
      rfl
    · exact addsUp_calls h hr hrx hry hd hdx hdy hbelow.mpiCalls

/-- A report of merged profiles is the sum of the reports of both, if none of its totals reaches the
greatest count. There is such a report if both reports together stay below that. -/
theorem run_merge {p : Program} {profile other merged : Profile} (hx : profile.bind p = .ok x)
    (hy : other.bind p = .ok y) (hkinds : profile.SameKinds other)
    (hmerge : profile.merge other = .ok merged)
    (hsize : ∀ f ∈ p.functions, ∀ block ∈ f.blocks, block.opcodes.length < 2 ^ 64)
    (a : Analyzer) :
    ∃ z, merged.bind p = .ok z ∧
      (∀ r, a.run z = .ok r → r.IsBelow →
        ∃ rx ry, a.run x = .ok rx ∧ a.run y = .ok ry ∧ r.IsSum rx ry) ∧
      ∀ rx ry, a.run x = .ok rx → a.run y = .ok ry → rx.IsBelowWith ry →
        ∃ r, a.run z = .ok r ∧ r.IsBelow := by
  obtain ⟨hagree, rfl⟩ := Profile.merge_eq_ok_iff.mp hmerge
  obtain ⟨z, hz, hsum⟩ := Profile.bind_sum hagree hkinds hx hy
  have hdecides : ∀ {profile : Profile} {b : Binding}, profile.bind p = .ok b →
      (a.total b).Decides (a.run b) :=
    fun hb => decides_total (length_opcodes_of_bind hb hsize)
  refine ⟨z, hz, fun r hr hbelow => ?_, fun rx ry hrx hry hbelow => ?_⟩
  · have hcounts := (hdecides hz).counts hr
    have htotal := total_sum hsum (.inl (hcounts.isBelow_iff.mp hbelow))
    rw [htotal] at hcounts
    have hfits := hcounts.isBelow_iff.mp hbelow
    obtain ⟨rx, hrx, hcountsx⟩ := (hdecides hx).exists_report hfits.left.fits
    obtain ⟨ry, hry, hcountsy⟩ := (hdecides hy).exists_report hfits.right.fits
    have hadds := isSum_of_counts hsum hr hrx hry hcounts hcountsx hcountsy hbelow
    exact ⟨rx, ry, hrx, hry, hadds⟩
  · have hfits := ((hdecides hx).counts hrx).isBelow_add ((hdecides hy).counts hry) hbelow
    rw [← total_sum hsum (.inr hfits)] at hfits
    obtain ⟨r, hr, hcounts⟩ := (hdecides hz).exists_report hfits.fits
    exact ⟨r, hr, hcounts.isBelow_iff.mpr hfits⟩

end

end Analyzer

/-- The runs of both. -/
def helperCalledTogether : Profile :=
  { Profile.empty with edgeCounts := some [2, 8], legacyComm := some [16, 128] }

/-- Of 22 instructions and ten calls that move 144 bytes the first profile has five and two. -/
theorem run_merge_blocksTwice :
    ∃ x y z r rx ry, helperCalled.bind sendAndCall = .ok x ∧
      helperCalledOften.bind sendAndCall = .ok y ∧ helperCalled.SameKinds helperCalledOften ∧
      helperCalled.merge helperCalledOften = .ok helperCalledTogether ∧
      (∀ f ∈ sendAndCall.functions, ∀ block ∈ f.blocks, block.opcodes.length < 2 ^ 64) ∧
      helperCalledTogether.bind sendAndCall = .ok z ∧
      (blocksTwice.run z = .ok r ∧ r.instructions = 22 ∧ r.mpiCalls = 10 ∧ r.commAmount = 144) ∧
      (blocksTwice.run x = .ok rx ∧ rx.instructions = 5 ∧ rx.mpiCalls = 2 ∧ rx.commAmount = 24) ∧
      blocksTwice.run y = .ok ry ∧ r.IsBelow ∧ r.IsSum rx ry := by
  have hx : helperCalled.bind sendAndCall = .ok _ := rfl
  have hy : helperCalledOften.bind sendAndCall = .ok _ := rfl
  have hmerge : helperCalled.merge helperCalledOften = .ok helperCalledTogether := rfl
  have htogether : helperCalledTogether.bind sendAndCall = .ok _ := rfl
  have hkinds : helperCalled.SameKinds helperCalledOften := by
    intro kind
    cases kind <;> rfl
  have hsize : ∀ f ∈ sendAndCall.functions, ∀ block ∈ f.blocks,
      block.opcodes.length < 2 ^ 64 := by decide
  obtain ⟨z, hz, hsum, -⟩ := Analyzer.run_merge hx hy hkinds hmerge hsize blocksTwice
  obtain rfl := Except.ok.inj (htogether.symm.trans hz)
  obtain ⟨rx, ry, hrx, hry, hadds⟩ := hsum _ rfl ⟨by decide, by decide, by decide⟩
  obtain rfl := Except.ok.inj hrx
  exact ⟨_, _, _, _, _, ry, hx, hy, hkinds, hmerge, hsize, hz, ⟨rfl, rfl, rfl, rfl⟩,
    ⟨rfl, rfl, rfl, rfl⟩, hry, ⟨by decide, by decide, by decide⟩, hadds⟩

end Price

end FlowProfile
