import FlowProfile.Proofs.Instrument.BlockWeights
import FlowProfile.Proofs.Profile.EdgeBinding
import FlowProfile.Proofs.Profile.FreshProfile

/-!
# Profiles of weights are exact

Instrumenting, running, adding up the records and binding the profile to the plain program, one
after another: the binding tells for each block what its weights were worth whenever the run came to
the end of the block, all added up in the order in which they were met.
-/

namespace FlowProfile

/-- A block has the sum of its weights, as the run found them at each end of the block. There are as
many of these as executions of the block. -/
structure Binding.WeighsBlock {σ : Type} (p : Program) (weights : List BlockWeight)
    (trace : List (Config σ)) (vs : List Visit) (binding : Binding) (i : ℕ) (b : BlockId) :
    Prop where
  sum : ∃ values, (seen ⟨i, b, []⟩ trace).mapM
      (fun vars => (p.weightsOf weights i b).mapM vars.get) = .ok values ∧
    binding.blockWeight i b = some ((values.flatten.map .ofInt64).foldl (· + ·) .zero)
  executions : (seen ⟨i, b, []⟩ trace).length = executions vs i b
  unweighed : p.weightsOf weights i b = [] → binding.blockWeight i b = some .zero

/-- The weights of a profile are cut into those of the functions. -/
theorem Profile.blockWeight_of_bind {profile : Profile} {p : Program} {binding : Binding}
    {weights : List Binary64} (h : profile.bind p = .ok binding)
    (hweights : profile.blockWeights = some weights) {i : ℕ} {b : BlockId} {block : Block}
    (hb : p.block? i b = some block) :
    binding.blockWeight i b = weights[p.blockSlot i b]? := by
  obtain ⟨f, hf, hb⟩ := Program.block?_eq_some_iff.mp hb
  obtain ⟨_, _, _, -, -, -, -, rfl⟩ := bind_eq_ok_iff.mp h
  have hcount : p.blockCounts[i]? = some f.blocks.length := by simp [Program.blockCounts, hf]
  have hlt : b < f.blocks.length := (List.getElem?_eq_some_iff.mp hb).1
  rw [Binding.blockWeight, hweights, Option.map_some, Option.bind_some, getElem?_cut hcount,
    Option.bind_some, List.getElem?_take_of_lt hlt, List.getElem?_drop]
  rfl

namespace Instrumenter

variable {σ : Type} {ins : Instrumenter} {p q : Program} {main : ℕ} {records : List Record}
  {host : Host σ} {state : σ} {limit : ℕ} {args : List String} {m : Machine σ}

/-- The records of weights are all the same, one for each entry of the entry function, and hold what
the slots do at the end. -/
theorem weights_of_run (hp : p.IsUninstrumented) (hins : ins.instrument p = .ok q)
    (hs : .weightedBlock ∈ ins.strategies) (hmain : p.functionIndex? ins.entry = some main)
    (hrun : q.run host state limit args = (m, .ok records)) :
    ∃ weights, ((records.map Record.profile).map Profile.blockWeights).reduceOption =
        List.replicate (activations (q.visits host state limit) main) weights ∧
      ∀ k, k < p.blockCounts.sum → ∃ x, weights[k]? = some x ∧
        m.counters.f64Slot weightCounters k = .ok x := by
  obtain ⟨words, ranks, hrecord, -, hslots⟩ :=
    (sized_of_run hp.1 hins hs hmain hrun).numbers Strategy.passes_weightedBlock (by simp) rfl
  refine ⟨_, parts_of_run hp hins hs hmain hrun hrecord rfl (fun _ => rfl) ?_, hslots⟩
  intro t _ ht words ranks
  cases t with
  | weightedBlock => exact absurd rfl ht
  | _ => rfl

/-- At the end of a run the slot of a block holds what the run found at each end of the block. -/
theorem slot_of_block (hp : p.IsOriginal) (hins : ins.instrument p = .ok q)
    (hs : .weightedBlock ∈ ins.strategies) (hmain : p.functionIndex? ins.entry = some main)
    (hrun : q.run host state limit args = (m, .ok records)) {i : ℕ} {b : BlockId} {block : Block}
    (hb : p.block? i b = some block) :
    p.blockSlot i b < p.blockCounts.sum ∧ ∃ values,
      (seen ⟨i, b, []⟩ (q.trace host state limit)).mapM
        (fun vars => (p.weightsOf ins.weights i b).mapM vars.get) = .ok values ∧
      m.counters.f64Slot weightCounters (p.blockSlot i b) =
        .ok (.total (values.flatten.map .ofInt64)) := by
  obtain ⟨hvalid, -, hone, happly⟩ := instrument_eq_ok hmain hins
  obtain ⟨f, hf, hplace⟩ := Program.block?_eq_some_iff.mp hb
  have hlt : p.blockSlot i b < p.blockCounts.sum := by
    refine sum_take_add_lt ?_
    simpa [Program.blockCounts, hf] using (List.getElem?_eq_some_iff.mp hplace).1
  have hpass : .weights weightCounters ∈ Strategy.weightedBlock.passes := List.mem_cons_self
  have hinit := (applyAll_declares hvalid hp hone happly hs hpass).1.f64Slot_initial rfl hlt
  obtain ⟨tail, hat, hvalues⟩ := (applyAll_weighs hp hs hb happly).exists_addsAtEnd
  exact ⟨hlt, hvalues ▸ hat.f64Slot_run hinit hrun⟩

/-- Profiles of weights are exact: the records of a run of the instrumented program that enters the
entry function once can be added up and bound to the plain program, and every block has the sum of
its weights over its executions. -/
theorem weightProfile_exact (hp : p.IsUninstrumented) (hins : ins.instrument p = .ok q)
    (hs : .weightedBlock ∈ ins.strategies) (host : Host σ) (state : σ) (limit : ℕ)
    (args : List String) (hrun : (q.run host state limit args).2 = .ok records)
    (hmain : p.functionIndex? ins.entry = some main)
    (honce : activations (q.visits host state limit) main = 1) :
    ∃ profile binding, Profile.ofRecords records = .ok profile ∧ profile.bind p = .ok binding ∧
      ∀ i f, p.functions[i]? = some f → ∀ b, b < f.blocks.length →
        binding.WeighsBlock p ins.weights (q.trace host state limit)
          (q.visits host state limit) i b := by
  obtain ⟨m, hm⟩ : ∃ m, q.run host state limit args = (m, .ok records) := ⟨_, Prod.ext rfl hrun⟩
  obtain ⟨profile, binding, hprofile, hbinding⟩ := exists_bound_of_run hp hins hm
  -- one of the records alone holds weights
  obtain ⟨weights, honly, hslots⟩ := weights_of_run hp hins hs hmain hm
  rw [honce] at honly
  have hweights := Profile.ofRecords_only (fun _ _ => rfl) rfl honly hprofile
  refine ⟨profile, binding, hprofile, hbinding, fun i f hf b hb => ?_⟩
  have hblock : p.block? i b = some f.blocks[b] :=
    Program.block?_eq_some_iff.mpr ⟨f, hf, List.getElem?_eq_getElem hb⟩
  obtain ⟨hlt, values, hvalues, hslot⟩ := slot_of_block hp.1 hins hs hmain hm hblock
  obtain ⟨x, hx, hholds⟩ := hslots _ hlt
  obtain rfl := Except.ok.inj (hholds.symm.trans hslot)
  have hsum : binding.blockWeight i b =
      some ((values.flatten.map .ofInt64).foldl (· + ·) .zero) := by
    rw [Profile.blockWeight_of_bind hbinding hweights hblock, hx, Binary64.total,
      Binary64.ofInt64_zero]
  refine ⟨⟨values, hvalues, hsum⟩, Program.length_seen_end hm i b, fun hnone => ?_⟩
  have hempty : ∀ value ∈ values, value = [] := by
    intro value hmem
    obtain ⟨vars, -, hvalue⟩ := Outcome.exists_of_mem_mapM hvalues hmem
    rw [hnone] at hvalue
    exact (Except.ok.inj hvalue).symm
  rw [hsum, List.flatten_eq_nil_iff.mpr hempty]
  rfl

end Instrumenter

/-- A declaration, a loop that runs three times, and a function that is called behind it. -/
def weighedLoop : Program where
  functions := [
    ⟨"puts", []⟩,
    ⟨"main", [
      ⟨"entry", [], .br 1⟩,
      ⟨"body", [.op "add" (some "i") [.var "i", .const 1],
        .op "lt" (some "again") [.var "i", .const 3]], .condBr (.var "again") 1 2⟩,
      ⟨"exit", [.call (.direct "helper") []], .ret⟩]⟩,
    ⟨"helper", [⟨"entry", [.call (.direct "puts") []], .ret⟩]⟩]
  globals := []

def weighedLoopWeights : List BlockWeight :=
  [⟨"main", 1, .var "i"⟩, ⟨"helper", 0, .var "again"⟩, ⟨"main", 1, .const (-2)⟩]

def weighedLoopCounted : Program where
  functions := [
    ⟨"puts", []⟩,
    ⟨"main", [
      ⟨"entry", [Strategy.comm.registration, Strategy.weightedBlock.registration,
        Strategy.edge.registration, .increment "__commprof_edge_counters" 0,
        .increment "__commprof_edge_counters" 1], .br 1⟩,
      ⟨"body", [.op "add" (some "i") [.var "i", .const 1],
        .op "lt" (some "again") [.var "i", .const 3], .addWeight weightCounters 1 (.var "i"),
        .addWeight weightCounters 1 (.const (-2))], .condBr (.var "again") 3 2⟩,
      ⟨"exit", [.increment "__commprof_edge_counters" 3, .call (.direct "helper") []], .ret⟩,
      ⟨"body.body_crit_edge", [.increment "__commprof_edge_counters" 2], .br 1⟩]⟩,
    ⟨"helper", [⟨"entry", [.increment "__commprof_edge_counters" 4, .call (.direct "puts") [],
      .addWeight weightCounters 3 (.var "again")], .ret⟩]⟩]
  globals := [⟨"__commprof_edge_counters", .u64, 5, 0⟩, ⟨weightCounters, .f64, 4, 0⟩,
    ⟨"__commprof_comm_counters", .u64, 0, 0⟩]

theorem weightProfile_weighedLoop :
    ∃ q records profile binding,
      Instrumenter.instrument ⟨[.edge, .weightedBlock, .comm], "main", weighedLoopWeights⟩
        weighedLoop = .ok q ∧
      (q.run MpiProcess.host (.start 0 1 .zero) 100 []).2 = .ok records ∧
      Profile.ofRecords records = .ok profile ∧ profile.bind weighedLoop = .ok binding ∧
      binding.blockWeight 1 1 = some (Binary64.zero + Binary64.ofInt64 1 + Binary64.ofInt64 (-2) +
        Binary64.ofInt64 2 + Binary64.ofInt64 (-2) + Binary64.ofInt64 3 + Binary64.ofInt64 (-2)) ∧
      binding.blockWeight 1 2 = some .zero ∧
      binding.blockWeight 2 0 = some (Binary64.zero + Binary64.ofInt64 0) := by
  have hins : Instrumenter.instrument ⟨[.edge, .weightedBlock, .comm], "main", weighedLoopWeights⟩
      weighedLoop = .ok weighedLoopCounted := rfl
  have hmain : weighedLoop.functionIndex? "main" = some 1 := rfl
  obtain ⟨profile, binding, hprofile, hbinding, hweighs⟩ := Instrumenter.weightProfile_exact
    (by decide) hins (by decide) MpiProcess.host (.start 0 1 .zero) 100 [] rfl hmain rfl
  refine ⟨_, _, profile, binding, hins, rfl, hprofile, hbinding, ?_, ?_, ?_⟩
  · obtain ⟨values, hvalues, hsum⟩ := (hweighs 1 _ rfl 1 (by decide)).sum
    obtain rfl : values = [[1, -2], [2, -2], [3, -2]] := Except.ok.inj (hvalues.symm.trans rfl)
    exact hsum
  · exact (hweighs 1 _ rfl 2 (by decide)).unweighed rfl
  · obtain ⟨values, hvalues, hsum⟩ := (hweighs 2 _ rfl 0 (by decide)).sum
    obtain rfl : values = [[0]] := Except.ok.inj (hvalues.symm.trans rfl)
    exact hsum

end FlowProfile
