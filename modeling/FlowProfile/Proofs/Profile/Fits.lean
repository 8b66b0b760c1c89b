import FlowProfile.Graph.Validate
import FlowProfile.Instrument.Basic
import FlowProfile.Profile.Binding
import FlowProfile.Proofs.Profile.Sum

/-!
# Records that fit a program

Records with as many counters of each kind as the program has edges, blocks and sites add
up to a profile, and the profile can be bound.
-/

namespace FlowProfile

def Record.Fits (p : Program) : Record → Prop
  | .arguments _ | .ranks _ => True
  | .blocks counts => counts.length = p.blockCounts.sum
  | .edges counts _ => counts.length = p.edgeSlots
  | .legacyComm bytes => bytes.length = p.payloadSites.length
  | .comm counters => counters.length = p.payloadSites.length
  | .time seconds _ => seconds.length = p.timedSites.length
  | .weightedBlocks weights => weights.length = p.blockCounts.sum

/-- The counters of each kind that a profile of the program has. -/
def Program.counters (p : Program) : CounterKind → ℕ
  | .edges => p.edgeSlots
  | .blocks | .weights => p.blockCounts.sum
  | .comm | .legacyComm => p.payloadSites.length
  | .seconds => p.timedSites.length

namespace Profile

structure Fits (p : Program) (profile : Profile) : Prop where
  edges : ∀ counts ∈ profile.edgeCounts, counts.length = p.edgeSlots
  blocks : ∀ counts ∈ profile.blockCounts, counts.length = p.blockCounts.sum
  comm : ∀ counters ∈ profile.comm, counters.length = p.payloadSites.length
  legacy : ∀ bytes ∈ profile.legacyComm, bytes.length = p.payloadSites.length
  seconds : ∀ seconds ∈ profile.commSeconds, seconds.length = p.timedSites.length
  weights : ∀ weights ∈ profile.blockWeights, weights.length = p.blockCounts.sum

theorem fits_iff {p : Program} {profile : Profile} :
    profile.Fits p ↔ ∀ kind n, profile.size? kind = some n → n = p.counters kind := by
  have hlength : ∀ {α : Type} (xs : Option (List α)) (n : ℕ),
      (∀ x ∈ xs, x.length = n) ↔ ∀ m, xs.map List.length = some m → m = n := by
    intro α xs n
    cases xs <;> simp
  constructor
  · rintro ⟨hedges, hblocks, hcomm, hlegacy, hseconds, hweights⟩ kind
    cases kind with
    | edges => exact (hlength _ _).mp hedges
    | blocks => exact (hlength _ _).mp hblocks
    | comm => exact (hlength _ _).mp hcomm
    | legacyComm => exact (hlength _ _).mp hlegacy
    | seconds => exact (hlength _ _).mp hseconds
    | weights => exact (hlength _ _).mp hweights
  · intro h
    exact ⟨(hlength _ _).mpr (h .edges), (hlength _ _).mpr (h .blocks), (hlength _ _).mpr (h .comm),
      (hlength _ _).mpr (h .legacyComm), (hlength _ _).mpr (h .seconds),
      (hlength _ _).mpr (h .weights)⟩

theorem fits_empty (p : Program) : Fits p empty := by
  constructor <;> simp [empty]

/-! ### Adding records -/

theorem Fits.agrees {p : Program} {a b : Profile} (ha : a.Fits p) (hb : b.Fits p) : a.Agrees b :=
  fun kind m n hm hn => (fits_iff.mp ha kind m hm).trans (fits_iff.mp hb kind n hn).symm

theorem Fits.sum {p : Program} {a b : Profile} (ha : a.Fits p) (hb : b.Fits p) :
    (a.sum b).Fits p := by
  refine fits_iff.mpr fun kind n hn => ?_
  rw [size?_sum (ha.agrees hb), Option.or_eq_some_iff] at hn
  rcases hn with hn | ⟨-, hn⟩
  · exact fits_iff.mp ha kind n hn
  · exact fits_iff.mp hb kind n hn

theorem Fits.foldl_sum {p : Program} {a : Profile} {parts : List Profile} (ha : a.Fits p)
    (h : ∀ part ∈ parts, part.Fits p) : (parts.foldl Profile.sum a).Fits p := by
  induction parts generalizing a with
  | nil => exact ha
  | cons part parts ih =>
      rw [List.forall_mem_cons] at h
      exact ih (ha.sum h.1) h.2

theorem fits_of_record {p : Program} {record : Record} (h : record.Fits p) :
    record.profile.Fits p := by
  constructor <;> cases record <;> simp_all [Record.profile, Record.Fits, ofRanks, empty]

/-- A kind of counters is the sum of those that there are. -/
theorem total_slots {α : Type} (part : Profile → Option (List α)) {add : α → α → α}
    (hsum : ∀ a b, part (a.sum b) = sumSlots add (part a) (part b)) (hempty : part empty = none)
    (ps : List Profile) : part (total ps) =
      (ps.map part).reduceOption.foldl (fun xs ys => sumSlots add xs (some ys)) none := by
  rw [total, foldl_sum_part part _ hsum, foldl_merge, hempty]

/-- A kind of counters that one record brings in is kept as it is. -/
theorem ofRecords_only {α : Type} {part : Profile → Option (List α)} {add : α → α → α}
    (hsum : ∀ a b, part (a.sum b) = sumSlots add (part a) (part b)) (hempty : part empty = none)
    {records : List Record} {profile : Profile} {xs : List α}
    (hone : ((records.map Record.profile).map part).reduceOption = [xs])
    (h : ofRecords records = .ok profile) : part profile = some xs := by
  obtain ⟨-, rfl⟩ := ofRecords_eq_ok_iff.mp h
  rw [total_slots part hsum hempty, hone]
  rfl

/-- Records that fit add up to a profile that fits. -/
theorem ofRecords_fits {p : Program} {records : List Record}
    (hrecords : ∀ record ∈ records, record.Fits p) :
    ∃ profile, ofRecords records = .ok profile ∧ profile.Fits p := by
  have hparts : ∀ part ∈ records.map Record.profile, part.Fits p := by
    intro part hmem
    obtain ⟨record, hrecord, rfl⟩ := List.mem_map.mp hmem
    exact fits_of_record (hrecords record hrecord)
  have hsum := ofRecords_eq_ok_iff.mpr
    ⟨List.pairwise_of_forall_mem_list fun a ha b hb => (hparts a ha).agrees (hparts b hb), rfl⟩
  exact ⟨_, hsum, (fits_empty p).foldl_sum hparts⟩

/-! ### Binding -/

theorem edgesInRange_of_isValid {p : Program} (hp : p.IsValid) :
    p.functions.all Function.edgesInRange = true := by
  simp only [List.all_eq_true, Function.edgesInRange, decide_eq_true_eq]
  intro f hf block hb dest hd
  exact (hp f hf block hb dest hd).1

theorem bindEdges_eq_ok_iff {p : Program} {counts : List UInt64} {functions : List FunctionCounts} :
    bindEdges p counts = .ok functions ↔
      (counts.length = p.edgeSlots ∧ p.functions.all Function.edgesInRange = true) ∧
        functions = p.functions.zipWith Function.ofEdgeCounts
          (cut (p.functions.map Function.slots) counts) := by
  simp only [bindEdges, Outcome.bind_eq_ok_iff, Outcome.require_eq_ok_iff, exists_const, and_assoc]
  refine and_congr_right fun _ => ?_
  by_cases h : p.functions.all Function.edgesInRange = true
  · simp only [h, if_true, true_and, Outcome.pure_eq_ok_iff]
    exact eq_comm
  · simp [h]

theorem bindBlocks_eq_ok_iff {p : Program} {counts : List UInt64}
    {functions : List FunctionCounts} :
    bindBlocks p counts = .ok functions ↔ counts.length = p.blockCounts.sum ∧
      functions = p.functions.zipWith Function.ofBlockCounts (cut p.blockCounts counts) := by
  simp only [bindBlocks, Outcome.bind_eq_ok_iff, Outcome.require_eq_ok_iff, exists_const,
    Outcome.pure_eq_ok_iff]
  exact and_congr_right fun _ => eq_comm

theorem bindWeights_eq_ok_iff {p : Program} {counts : List Binary64}
    {weights : List (List Binary64)} :
    bindWeights p counts = .ok weights ↔ counts.length = p.blockCounts.sum ∧
      weights = cut p.blockCounts counts := by
  simp only [bindWeights, Outcome.bind_eq_ok_iff, Outcome.require_eq_ok_iff, exists_const,
    Outcome.pure_eq_ok_iff]
  exact and_congr_right fun _ => eq_comm

/-- All counters that are read are as many as the program asks for. Those of blocks are not read
beside those of edges, and legacy ones not beside full ones. -/
structure Binds (p : Program) (profile : Profile) : Prop where
  edges : ∀ counts ∈ profile.edgeCounts,
    counts.length = p.edgeSlots ∧ p.functions.all Function.edgesInRange = true
  blocks : profile.edgeCounts = none → ∀ counts ∈ profile.blockCounts,
    counts.length = p.blockCounts.sum
  comm : ∀ counters ∈ profile.comm, counters.length = p.payloadSites.length
  legacy : profile.comm = none → ∀ bytes ∈ profile.legacyComm, bytes.length = p.payloadSites.length
  seconds : ∀ seconds ∈ profile.commSeconds, seconds.length = p.timedSites.length
  weights : ∀ weights ∈ profile.blockWeights, weights.length = p.blockCounts.sum

variable {p : Program} {profile : Profile}

theorem exists_bindCounts_iff : (∃ functions, bindCounts p profile = .ok functions) ↔
    (∀ counts ∈ profile.edgeCounts,
      counts.length = p.edgeSlots ∧ p.functions.all Function.edgesInRange = true) ∧
    (profile.edgeCounts = none → ∀ counts ∈ profile.blockCounts,
      counts.length = p.blockCounts.sum) := by
  unfold bindCounts
  cases profile.edgeCounts with
  | some counts => simp [bindEdges_eq_ok_iff]
  | none =>
      cases profile.blockCounts with
      | some counts => simp [bindBlocks_eq_ok_iff]
      | none => simp

theorem exists_bindPayloads_iff (functions : List FunctionCounts) :
    (∃ calls, bindPayloads p profile functions = .ok calls) ↔
      (∀ counters ∈ profile.comm, counters.length = p.payloadSites.length) ∧
      (profile.comm = none → ∀ bytes ∈ profile.legacyComm,
        bytes.length = p.payloadSites.length) := by
  unfold bindPayloads
  cases profile.comm with
  | some counters => simp
  | none => cases profile.legacyComm <;> simp

theorem bindPayloads_full {functions : List FunctionCounts} {counters : List CommCounter}
    (hcomm : profile.comm = some counters) {calls : List TrappedCall} :
    bindPayloads p profile functions = .ok calls ↔ counters.length = p.payloadSites.length ∧
      calls = (p.payloadSites.zip counters).zipIdx.map fun x =>
        ⟨x.2, x.1.1.toSite, .full, x.1.2.calls, x.1.2.bytes⟩ := by
  simp only [bindPayloads, hcomm, Outcome.bind_eq_ok_iff, Outcome.require_eq_ok_iff, exists_const,
    Outcome.pure_eq_ok_iff]
  exact and_congr_right fun _ => eq_comm

theorem bindPayloads_legacy {functions : List FunctionCounts} {bytes : List UInt64}
    (hcomm : profile.comm = none) (hlegacy : profile.legacyComm = some bytes)
    {calls : List TrappedCall} :
    bindPayloads p profile functions = .ok calls ↔ bytes.length = p.payloadSites.length ∧
      calls = (p.payloadSites.zip bytes).zipIdx.map fun x =>
        ⟨x.2, x.1.1.toSite, .legacy, executionsIn functions x.1.1.function x.1.1.block, x.1.2⟩ := by
  simp only [bindPayloads, hcomm, hlegacy, Outcome.bind_eq_ok_iff, Outcome.require_eq_ok_iff,
    exists_const, Outcome.pure_eq_ok_iff]
  exact and_congr_right fun _ => eq_comm

theorem bindTimes_some {seconds : List Binary64} (hseconds : profile.commSeconds = some seconds)
    {calls : List TimedCall} :
    bindTimes p profile = .ok calls ↔ seconds.length = p.timedSites.length ∧
      calls = (p.timedSites.zip seconds).map fun x => ⟨x.1, x.2⟩ := by
  simp only [bindTimes, hseconds, Outcome.bind_eq_ok_iff, Outcome.require_eq_ok_iff, exists_const,
    Outcome.pure_eq_ok_iff]
  exact and_congr_right fun _ => eq_comm

theorem exists_bindTimes_iff : (∃ calls, bindTimes p profile = .ok calls) ↔
    ∀ seconds ∈ profile.commSeconds, seconds.length = p.timedSites.length := by
  unfold bindTimes
  cases profile.commSeconds <;> simp

theorem bind_eq_ok_iff {binding : Binding} : profile.bind p = .ok binding ↔
    ∃ functions trapped timed, bindCounts p profile = .ok functions ∧
      (∀ weights ∈ profile.blockWeights, weights.length = p.blockCounts.sum) ∧
      bindPayloads p profile functions = .ok trapped ∧ bindTimes p profile = .ok timed ∧
      binding = ⟨p, profile, functions, profile.edgeCounts.isSome || profile.blockCounts.isSome,
        profile.blockWeights.map (cut p.blockCounts), trapped, timed⟩ := by
  simp only [bind, Outcome.bind_eq_ok_iff]
  cases profile.blockWeights with
  | none =>
      simp only [Outcome.bind_eq_ok_iff, Outcome.pure_eq_ok_iff]
      constructor
      · rintro ⟨functions, hfunctions, _, ⟨⟩, trapped, htrapped, timed, htimed, rfl⟩
        exact ⟨functions, trapped, timed, hfunctions, by simp, htrapped, htimed, rfl⟩
      · rintro ⟨functions, trapped, timed, hfunctions, -, htrapped, htimed, rfl⟩
        exact ⟨functions, hfunctions, none, rfl, trapped, htrapped, timed, htimed, rfl⟩
  | some counts =>
      simp only [Outcome.bind_eq_ok_iff, Outcome.pure_eq_ok_iff, Outcome.map_eq_ok_iff,
        bindWeights_eq_ok_iff, Option.mem_some_iff, forall_eq']
      constructor
      · rintro ⟨functions, hfunctions, _, ⟨_, ⟨hlen, rfl⟩, rfl⟩, trapped, htrapped, timed, htimed,
          rfl⟩
        exact ⟨functions, trapped, timed, hfunctions, hlen, htrapped, htimed, rfl⟩
      · rintro ⟨functions, trapped, timed, hfunctions, hlen, htrapped, htimed, rfl⟩
        exact ⟨functions, hfunctions, _, ⟨_, ⟨hlen, rfl⟩, rfl⟩, trapped, htrapped, timed, htimed,
          rfl⟩

/-- A profile is bound if each kind of counters that is read can be. -/
theorem exists_bind_iff : (∃ binding, profile.bind p = .ok binding) ↔ profile.Binds p := by
  simp only [bind_eq_ok_iff]
  constructor
  · rintro ⟨_, functions, trapped, timed, hfunctions, hweights, htrapped, htimed, -⟩
    obtain ⟨hedges, hblocks⟩ := exists_bindCounts_iff.mp ⟨functions, hfunctions⟩
    obtain ⟨hcomm, hlegacy⟩ := (exists_bindPayloads_iff functions).mp ⟨trapped, htrapped⟩
    exact ⟨hedges, hblocks, hcomm, hlegacy, exists_bindTimes_iff.mp ⟨timed, htimed⟩, hweights⟩
  · rintro ⟨hedges, hblocks, hcomm, hlegacy, hseconds, hweights⟩
    obtain ⟨functions, hfunctions⟩ := exists_bindCounts_iff.mpr ⟨hedges, hblocks⟩
    obtain ⟨trapped, htrapped⟩ := (exists_bindPayloads_iff functions).mpr ⟨hcomm, hlegacy⟩
    obtain ⟨timed, htimed⟩ := exists_bindTimes_iff.mpr hseconds
    exact ⟨_, functions, trapped, timed, hfunctions, hweights, htrapped, htimed, rfl⟩

theorem Fits.binds (h : profile.Fits p) (hp : p.IsValid) : profile.Binds p where
  edges counts hcounts := ⟨h.edges counts hcounts, edgesInRange_of_isValid hp⟩
  blocks _ := h.blocks
  comm := h.comm
  legacy _ := h.legacy
  seconds := h.seconds
  weights := h.weights

/-- A profile that fits a valid program can be bound to it. -/
theorem bind_fits (hp : p.IsValid) (h : profile.Fits p) :
    ∃ binding, profile.bind p = .ok binding :=
  exists_bind_iff.mpr (h.binds hp)

/-- The counters of edges are cut into those of the functions. -/
theorem functions_of_bind {binding : Binding} {counts : List UInt64}
    (h : profile.bind p = .ok binding) (hcounts : profile.edgeCounts = some counts) :
    binding.functions = p.functions.zipWith
      Function.ofEdgeCounts (cut (p.functions.map Function.slots) counts) := by
  obtain ⟨functions, _, _, hfunctions, -, -, -, rfl⟩ := bind_eq_ok_iff.mp h
  rw [bindCounts, hcounts] at hfunctions
  exact (bindEdges_eq_ok_iff.mp hfunctions).2

end Profile

end FlowProfile
