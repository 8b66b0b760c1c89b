import FlowProfile.Proofs.Instrument.PassFailures
import FlowProfile.Proofs.Profile.Conversion

/-!
# What binding reads

A profile is bound or refused for any program, valid or not, unless it has as many edge counters as
the program asks for while some edge ends at no block: the count of that edge would be added to a
block that is not there. What is bound has a counter for every block, and finds every call in one.
-/

namespace FlowProfile

/-! ### Causes and faults -/

/-- A check refuses with a cause. -/
theorem Outcome.require_bind_eq_fault_iff {α : Type} {c : Prop} [Decidable c] {cause : Cause}
    {k : Unit → Outcome α} {fault : Fault} :
    require c cause >>= k = .error (.fault fault) ↔ c ∧ k () = .error (.fault fault) := by
  by_cases h : c
  · rw [require_of h, ok_bind, and_iff_right h]
  · simp [require, h, fail, bind_eq_error_iff]

theorem Outcome.map_eq_error_iff {α β : Type} {f : α → β} {x : Outcome α} {failure : Failure} :
    x.map f = .error failure ↔ x = .error failure := by
  cases x <;> simp [Except.map]

theorem Function.edgesInRange_eq_false_iff {f : Function} : f.edgesInRange = false ↔ f.Dangles := by
  simp [edgesInRange, Dangles]

namespace Profile

variable {p : Program} {profile : Profile} {fault : Fault}

theorem bindEdges_eq_fault_iff {counts : List UInt64} :
    bindEdges p counts = .error (.fault fault) ↔
      fault = .outOfRange ∧ counts.length = p.edgeSlots ∧ ∃ f ∈ p.functions, f.Dangles := by
  have hall : p.functions.all Function.edgesInRange = false ↔ ∃ f ∈ p.functions, f.Dangles := by
    simp [Function.edgesInRange_eq_false_iff]
  rw [← hall, bindEdges, Outcome.require_bind_eq_fault_iff]
  cases p.functions.all Function.edgesInRange with
  | true => simp [pure, Except.pure]
  | false => simp [Outcome.fault, and_comm, eq_comm]

theorem bindCounts_eq_fault_iff : bindCounts p profile = .error (.fault fault) ↔
    fault = .outOfRange ∧ (∃ counts ∈ profile.edgeCounts, counts.length = p.edgeSlots) ∧
      ∃ f ∈ p.functions, f.Dangles := by
  unfold bindCounts
  cases profile.edgeCounts with
  | some counts => simp [bindEdges_eq_fault_iff]
  | none =>
      cases profile.blockCounts with
      | some counts =>
          simp only [bindBlocks, Outcome.require_bind_eq_fault_iff]
          simp [pure, Except.pure]
      | none => simp

theorem bindWeights_ne_fault (weights : List Binary64) :
    bindWeights p weights ≠ .error (.fault fault) := by
  rw [bindWeights, ne_eq, Outcome.require_bind_eq_fault_iff]
  rintro ⟨-, h⟩
  cases h

theorem bindPayloads_ne_fault (functions : List FunctionCounts) :
    bindPayloads p profile functions ≠ .error (.fault fault) := by
  unfold bindPayloads
  cases profile.comm with
  | some counters =>
      rw [ne_eq, Outcome.require_bind_eq_fault_iff]
      rintro ⟨-, h⟩
      cases h
  | none =>
      cases profile.legacyComm with
      | some bytes =>
          rw [ne_eq, Outcome.require_bind_eq_fault_iff]
          rintro ⟨-, h⟩
          cases h
      | none => exact nofun

theorem bindTimes_ne_fault : bindTimes p profile ≠ .error (.fault fault) := by
  unfold bindTimes
  cases profile.commSeconds with
  | some seconds =>
      rw [ne_eq, Outcome.require_bind_eq_fault_iff]
      rintro ⟨-, h⟩
      cases h
  | none => exact nofun

/-- Only counts of edges are added to blocks that may not be there. -/
theorem bind_eq_fault_iff : profile.bind p = .error (.fault fault) ↔
    fault = .outOfRange ∧ (∃ counts ∈ profile.edgeCounts, counts.length = p.edgeSlots) ∧
      ∃ f ∈ p.functions, f.Dangles := by
  rw [← bindCounts_eq_fault_iff]
  unfold bind
  cases profile.blockWeights <;>
    simp only [Outcome.bind_eq_error_iff, Outcome.map_eq_error_iff, bindWeights_ne_fault,
      bindPayloads_ne_fault, bindTimes_ne_fault, pure, Except.pure, reduceCtorEq, and_false,
      exists_false, or_false]

end Profile

/-! ### What is bound -/

/-- The counters of a function: one for each block, and one for each edge of these if edges were
counted. -/
structure FunctionCounts.Covers (f : Function) (counts : FunctionCounts) : Prop where
  blocks : counts.blocks.length = f.blocks.length
  edges : counts.edges.map List.length = f.edgeCounts ∨ counts.edges = f.blocks.map fun _ => []

theorem FunctionCounts.Covers.length_le {f : Function} {counts : FunctionCounts}
    (h : counts.Covers f) {b : BlockId} {edges : List UInt64}
    (hedges : counts.edges[b]? = some edges) :
    edges.length ≤ (f.successors b).length := by
  rcases h.edges with hcounted | hempty
  · have hlen := congrArg (·[b]?) hcounted
    simp only [Function.edgeCounts, List.getElem?_map, hedges, Option.map_some] at hlen
    obtain ⟨block, hb, hblock⟩ := Option.map_eq_some_iff.mp hlen.symm
    rw [Function.successors_eq hb, hblock]
  · rw [hempty, List.getElem?_map] at hedges
    obtain ⟨_, -, rfl⟩ := Option.map_eq_some_iff.mp hedges
    exact Nat.zero_le _

/-- Counters for all that the program has, and calls that are in it. -/
structure Binding.Covers (binding : Binding) : Prop where
  functions : List.Forall₂ FunctionCounts.Covers binding.program.functions binding.functions
  weights : ∀ weights ∈ binding.weights,
    weights.map List.length = binding.program.blockCounts
  trapped : ∀ call ∈ binding.trapped,
    (binding.program.block? call.site.function call.site.block).isSome
  timed : ∀ call ∈ binding.timed,
    (binding.program.block? call.site.function call.site.block).isSome

namespace Profile

variable {p : Program} {profile : Profile}

/-- A function has as many pieces of counters as it has blocks, or it gets no counters at all. -/
theorem covers_ofEdgeCounts {f : Function} {counts : List UInt64}
    (h : counts = [] ∨ counts.length = f.slots) : (f.ofEdgeCounts counts).Covers f := by
  refine ⟨Function.length_ofEdgeCounts, ?_⟩
  cases counts with
  | nil => exact .inr rfl
  | cons entries counts =>
      refine .inl (map_length_cut ?_)
      have hlen := h.resolve_left (List.cons_ne_nil _ _)
      have hdef : ¬f.isDeclaration := fun hdecl => by simp [Function.slots, hdecl] at hlen
      rw [Function.slots, if_neg hdef, Function.edgeSlots, List.length_cons] at hlen
      unfold Function.edgeCounts
      omega

theorem covers_of_bindCounts {functions : List FunctionCounts}
    (h : bindCounts p profile = .ok functions) :
    List.Forall₂ FunctionCounts.Covers p.functions functions := by
  unfold bindCounts at h
  cases hedges : profile.edgeCounts with
  | some counts =>
      simp only [hedges] at h
      obtain ⟨⟨hlen, -⟩, rfl⟩ := bindEdges_eq_ok_iff.mp h
      refine (Program.forall₂_functionCounts hlen).imp ?_
      rintro f _ ⟨piece, hpiece, rfl⟩
      exact covers_ofEdgeCounts (.inr hpiece)
  | none =>
      cases hblocks : profile.blockCounts with
      | some counts =>
          simp only [hedges, hblocks] at h
          obtain ⟨hlen, rfl⟩ := bindBlocks_eq_ok_iff.mp h
          exact forall₂_zipWith (fun _ _ hpiece => ⟨hpiece, .inr rfl⟩) (forall₂_cut hlen.ge)
      | none =>
          simp only [hedges, hblocks] at h
          obtain rfl := Except.ok.inj h
          rw [List.forall₂_map_right_iff]
          exact List.forall₂_same.mpr fun f _ => covers_ofEdgeCounts (.inl rfl)

theorem trapped_of_bindPayloads {functions : List FunctionCounts} {calls : List TrappedCall}
    (h : bindPayloads p profile functions = .ok calls) {call : TrappedCall} (hcall : call ∈ calls) :
    ∃ s ∈ p.payloadSites, call.site = s.toSite := by
  have hsite : ∀ {α : Type} {counters : List α} {entry : (Comm.PayloadSite × α) × ℕ → TrappedCall},
      (∀ x, (entry x).site = x.1.1.toSite) →
      call ∈ (p.payloadSites.zip counters).zipIdx.map entry →
      ∃ s ∈ p.payloadSites, call.site = s.toSite := by
    intro α counters entry hentry hmem
    obtain ⟨x, hx, rfl⟩ := List.mem_map.mp hmem
    exact ⟨_, (List.of_mem_zip (List.fst_mem_of_mem_zipIdx hx)).1, hentry x⟩
  cases hcomm : profile.comm with
  | some counters =>
      obtain ⟨-, rfl⟩ := (bindPayloads_full hcomm).mp h
      exact hsite (fun _ => rfl) hcall
  | none =>
      cases hlegacy : profile.legacyComm with
      | some bytes =>
          obtain ⟨-, rfl⟩ := (bindPayloads_legacy hcomm hlegacy).mp h
          exact hsite (fun _ => rfl) hcall
      | none =>
          rw [bindPayloads, hcomm, hlegacy] at h
          obtain rfl := Except.ok.inj h
          cases hcall

theorem timed_of_bindTimes {calls : List TimedCall} (h : bindTimes p profile = .ok calls)
    {call : TimedCall} (hcall : call ∈ calls) : call.site ∈ p.timedSites := by
  cases hseconds : profile.commSeconds with
  | some seconds =>
      obtain ⟨-, rfl⟩ := (bindTimes_some hseconds).mp h
      obtain ⟨x, hx, rfl⟩ := List.mem_map.mp hcall
      exact (List.of_mem_zip hx).1
  | none =>
      rw [bindTimes, hseconds] at h
      obtain rfl := Except.ok.inj h
      cases hcall

theorem covers_of_bind {binding : Binding} (h : profile.bind p = .ok binding) :
    binding.Covers := by
  obtain ⟨functions, trapped, timed, hfunctions, hweights, htrapped, htimed, rfl⟩ :=
    bind_eq_ok_iff.mp h
  refine ⟨covers_of_bindCounts hfunctions, fun pieces hpieces => ?_, fun call hcall => ?_,
    fun call hcall => ?_⟩
  · obtain ⟨weights, hmem, rfl⟩ := Option.map_eq_some_iff.mp hpieces
    exact map_length_cut (hweights weights hmem).ge
  · obtain ⟨s, hs, hsite⟩ := trapped_of_bindPayloads htrapped hcall
    obtain ⟨block, hb, -⟩ := Program.exists_place_of_mem_payloadSites hs
    rw [hsite, hb]
    rfl
  · obtain ⟨block, hb, -⟩ :=
      Program.exists_place_of_mem_timedSites (timed_of_bindTimes htimed hcall)
    rw [hb]
    rfl

end Profile

namespace Binding

variable {binding : Binding}

theorem Covers.exists_function (h : binding.Covers) {i : ℕ} {counts : FunctionCounts}
    (hcounts : binding.functions[i]? = some counts) :
    ∃ f, binding.program.functions[i]? = some f ∧ counts.Covers f := by
  obtain ⟨hi, rfl⟩ := List.getElem?_eq_some_iff.mp hcounts
  have hlt : i < binding.program.functions.length := h.functions.length_eq ▸ hi
  exact ⟨_, List.getElem?_eq_getElem hlt, h.functions.get hlt hi⟩

theorem Covers.map_length_blocks (h : binding.Covers) :
    binding.functions.map (·.blocks.length) = binding.program.blockCounts := by
  rw [Program.blockCounts, ← List.forall₂_eq_eq_eq, List.forall₂_map_left_iff,
    List.forall₂_map_right_iff]
  exact (h.functions.imp fun _ _ hcovers => hcovers.blocks).flip

theorem Covers.exists_weights (h : binding.Covers) {weights : List (List Binary64)}
    (hweights : binding.weights = some weights) {i : ℕ} {piece : List Binary64}
    (hpiece : weights[i]? = some piece) :
    ∃ f, binding.program.functions[i]? = some f ∧ piece.length = f.blocks.length := by
  have hlen := congrArg (·[i]?) (h.weights weights hweights)
  simp only [Program.blockCounts, List.getElem?_map, hpiece, Option.map_some] at hlen
  obtain ⟨f, hf, hblocks⟩ := Option.map_eq_some_iff.mp hlen.symm
  exact ⟨f, hf, hblocks.symm⟩

/-- Every query has the answer for none where the program has no function, no block, or no edge. -/
structure AnswersWithin (p : Program) (binding : Binding) : Prop where
  function : ∀ i, p.functions[i]? = none → binding.functionCount i = none
  block : ∀ i b, p.block? i b = none →
    binding.executionCount i b = 0 ∧ binding.blockWeight i b = none
  edge : ∀ i b succ, (∀ f, p.functions[i]? = some f → ¬f.HasEdge (b, succ)) →
    binding.edgeCount i b succ = none
  frequency : ∀ call, binding.hasBlockCounts → p.block? call.site.function call.site.block = none →
    binding.blockFrequency call = 0
  record : ∀ counts, binding.blockRecord = .ok (.blocks counts) →
    counts.length = p.blockCounts.sum

theorem Covers.executionCount_eq_zero (h : binding.Covers) {i : ℕ} {b : BlockId}
    (hb : binding.program.block? i b = none) : binding.executionCount i b = 0 := by
  have hnone : (binding.functions[i]?).bind (·.blocks[b]?) = none := by
    refine Option.bind_eq_none_iff.mpr fun counts hcounts => ?_
    obtain ⟨f, hf, hcovers⟩ := h.exists_function hcounts
    rw [Program.block?, hf] at hb
    exact List.getElem?_eq_none_iff.mpr (hcovers.blocks ▸ List.getElem?_eq_none_iff.mp hb)
  rw [executionCount, Profile.executionsIn, hnone]
  rfl

theorem Covers.blockWeight_eq_none (h : binding.Covers) {i : ℕ} {b : BlockId}
    (hb : binding.program.block? i b = none) : binding.blockWeight i b = none := by
  refine Option.bind_eq_none_iff.mpr fun piece hpiece => ?_
  obtain ⟨weights, hweights, hpiece⟩ := Option.bind_eq_some_iff.mp hpiece
  obtain ⟨f, hf, hpieces⟩ := h.exists_weights hweights hpiece
  rw [Program.block?, hf] at hb
  exact List.getElem?_eq_none_iff.mpr (hpieces ▸ List.getElem?_eq_none_iff.mp hb)

theorem Covers.answersWithin (h : binding.Covers) : binding.AnswersWithin binding.program where
  function i hi := by
    have hnone : binding.functions[i]? = none := by
      rw [List.getElem?_eq_none_iff] at hi ⊢
      exact h.functions.length_eq ▸ hi
    rw [functionCount, hnone]
    rfl
  block i b hb := ⟨h.executionCount_eq_zero hb, h.blockWeight_eq_none hb⟩
  frequency call hcounts hb := by
    rw [blockFrequency, if_pos hcounts, h.executionCount_eq_zero hb]
  edge i b succ hedge := by
    rw [edgeCount, Option.bind_assoc, Option.bind_eq_none_iff]
    intro counts hcounts
    obtain ⟨f, hf, hcovers⟩ := h.exists_function hcounts
    refine Option.bind_eq_none_iff.mpr fun edges hedges => ?_
    exact List.getElem?_eq_none_iff.mpr
      ((hcovers.length_le hedges).trans (Nat.not_lt.mp (hedge f hf)))
  record counts hcounts := by
    unfold blockRecord at hcounts
    split at hcounts
    · obtain rfl := Record.blocks.inj (Except.ok.inj hcounts)
      rw [List.length_flatMap]
      exact congrArg List.sum h.map_length_blocks
    · cases hcounts

end Binding

namespace Profile

/-- For any program and any profile: binding stops with a fault exactly if there are as many edge
counters as the program has slots and an edge that ends at no block. What is bound has a counter for
every block and finds its calls in blocks, and no query reads beyond these. -/
theorem bind_in_range (p : Program) (profile : Profile) :
    (∀ fault, profile.bind p = .error (.fault fault) ↔ fault = .outOfRange ∧
      (∃ counts ∈ profile.edgeCounts, counts.length = p.edgeSlots) ∧
      ∃ f ∈ p.functions, f.Dangles) ∧
    ∀ binding, profile.bind p = .ok binding → binding.Covers ∧ binding.AnswersWithin p := by
  refine ⟨fun fault => bind_eq_fault_iff, fun binding h => ⟨covers_of_bind h, ?_⟩⟩
  have hwithin := (covers_of_bind h).answersWithin
  obtain ⟨_, _, _, -, -, -, -, rfl⟩ := bind_eq_ok_iff.mp h
  exact hwithin

end Profile

/-- The branch leads to no block. -/
def branchesNowhere : Program where
  functions := [⟨"main", [⟨"entry", [], .br 7⟩]⟩]
  globals := []

/-- Such a profile is refused if it has too few counters, and otherwise neither bound nor
refused. -/
theorem bind_in_range_branchesNowhere :
    { Profile.empty with edgeCounts := some [1, 1] }.bind branchesNowhere =
      .error (.fault .outOfRange) ∧
    (∀ fault, { Profile.empty with edgeCounts := some [1] }.bind branchesNowhere ≠
      .error (.fault fault)) ∧
    ∃ binding, { Profile.empty with blockCounts := some [1] }.bind branchesNowhere = .ok binding ∧
      binding.Covers ∧ binding.executionCount 0 7 = 0 := by
  have hbind : { Profile.empty with blockCounts := some [1] }.bind branchesNowhere = .ok _ := rfl
  obtain ⟨hcovers, hwithin⟩ := (Profile.bind_in_range branchesNowhere _).2 _ hbind
  refine ⟨((Profile.bind_in_range _ _).1 _).mpr ⟨rfl, by decide⟩, fun fault hfault => ?_,
    _, hbind, hcovers, (hwithin.block 0 7 rfl).1⟩
  obtain ⟨-, hcounts, -⟩ := ((Profile.bind_in_range _ _).1 fault).mp hfault
  exact absurd hcounts (by decide)

/-- Not every profile is bound or refused. -/
theorem bind_not_in_range : ¬∀ (p : Program) (profile : Profile),
    (∃ binding, profile.bind p = .ok binding) ∨
      ∃ contexts cause, profile.bind p = .error (.error contexts cause) := by
  intro h
  have hfault : { Profile.empty with edgeCounts := some [1, 1] }.bind branchesNowhere =
      .error (.fault .outOfRange) := rfl
  rcases h branchesNowhere { Profile.empty with edgeCounts := some [1, 1] } with
    ⟨binding, hbind⟩ | ⟨contexts, cause, hrefused⟩
  · cases hfault.symm.trans hbind
  · cases hfault.symm.trans hrefused

end FlowProfile
