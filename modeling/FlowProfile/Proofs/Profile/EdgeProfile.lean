import FlowProfile.Proofs.Profile.EdgeBinding
import FlowProfile.Proofs.Profile.FreshProfile

/-!
# Edge profiles are exact

Instrumenting, running, adding up the records and binding the profile to the plain program,
one after another: the binding reports how often the run entered each function, took each
edge and ran each block.
-/

namespace FlowProfile

/-- What the binding reports are the counts of a run. -/
def Binding.CountsRun (p : Program) (vs : List Visit) (binding : Binding) : Prop :=
  ∀ (i : ℕ) (f : Function), p.functions[i]? = some f → f.isDeclaration = false →
    (binding.functionCount i).map UInt64.toNat = some (activations vs i) ∧
    (∀ b succ, f.HasEdge (b, succ) →
      (binding.edgeCount i b succ).map UInt64.toNat = some (departures vs i b succ)) ∧
    ∀ b, b < f.blocks.length → (binding.executionCount i b).toNat = executions vs i b

namespace Program

variable {used : Strategy → Prop} {values : Operand → Prop} {p q : Program} {s : Strategy}
  {counters : String}

/-- Payloads are counted in an array of their own. -/
theorem Grows.countsAlone (hp : p.IsPlain) (h : p.Grows values used q) (hcounts : s.countsEdges)
    {rest : List Pass} (hpasses : s.passes = .edges counters :: rest) : q.CountsAlone counters := by
  intro slot count datatype hinst
  rcases h.edited.hasInst hinst with ha | hinst
  · generalize hadd : Inst.accumulate counters slot count datatype = inst at ha
    cases ha with
    | @pass t pass len inst ht hpass hg ha =>
        cases ha <;> cases hadd
        have hname : counters = "__commprof_comm_counters" := by
          cases t <;> simp_all [Strategy.passes]
        rcases hcounts with rfl | rfl <;> simp [Strategy.passes, hname] at hpasses
    | registration => cases hadd
  · cases (hp.hasInst hinst).1

/-- A run takes no more steps than a counter can tell. -/
theorem executions_le {σ : Type} {host : Host σ} {state : σ} {limit : UInt64} {args : List String}
    {m : Machine σ} {records : List Record}
    (h : q.run host state limit.toNat args = (m, .ok records)) (i : ℕ) (b : BlockId) :
    executions (q.visits host state limit.toNat) i b ≤ 2 ^ 64 - 1 := by
  have hle := length_visits_le h
  have hlimit := limit.toNat_lt
  have hcount : executions (q.visits host state limit.toNat) i b ≤ _ := List.countP_le_length
  omega

end Program

/-- Counters that hold the counts of a run are bound to them. -/
theorem Binding.BoundEdges.countsRun {σ : Type} {splitting : Prop} {added : Inst → Prop}
    {p q : Program} {s : Strategy} {main : ℕ} {counters : String} {host : Host σ} {state : σ}
    {limit : UInt64} {args : List String} {m : Machine σ} {records : List Record}
    {counts : List UInt64} {binding : Binding} (hbound : binding.BoundEdges p counts)
    (hvalid : p.IsValid) (hprofiled : p.Profiled s main counters q)
    (hedit : p.Edited splitting added q) (halone : q.CountsAlone counters)
    (hrun : q.run host state limit.toNat args = (m, .ok records))
    (hcounts : ∀ k, k < p.edgeSlots →
      ∃ c, counts[k]? = some c ∧ c.toNat = m.counters.count counters k) :
    binding.CountsRun p (q.visits host state limit.toNat) := by
  intro i f hf hdef
  obtain ⟨g, hg, hfg⟩ := hedit.exists_right hf
  have hrefines := hfg.refines (hvalid f (List.mem_of_getElem? hf))
  have hslots := Function.slots_eq hdef
  have hroom : p.entrySlot i + f.slots ≤ p.edgeSlots := by
    rw [sum_map_definedFunctions]
    exact sum_take_add_le (by simp [hf])
  have hentry : ∃ c, counts[p.entrySlot i]? = some c ∧
      c.toNat = activations (q.visits host state limit.toNat) i := by
    rw [← Program.count_entry hprofiled hedit halone hrun hf hdef]
    exact hcounts _ (by omega)
  have hedges : ∀ (j : ℕ) (e : BlockId × ℕ), (f.edges f.blocks.length)[j]? = some e →
      ∃ c, counts[p.entrySlot i + 1 + j]? = some c ∧
        c.toNat = departures (q.visits host state limit.toNat) i e.1 e.2 := by
    intro j e he
    have hj := (List.getElem?_eq_some_iff.mp he).1
    rw [← Program.count_edge hprofiled hedit halone hrun hf hdef he]
    exact hcounts _ (by omega)
  obtain ⟨hfunction, hedge, hblock⟩ := hbound.counts_eq hf hdef
    (fun e => departures (q.visits host state limit.toNat) i e.1 e.2) hentry hedges
  refine ⟨hfunction, hedge, ?_⟩
  intro b hb
  have hsum : (if b = 0 then activations (q.visits host state limit.toNat) i else 0) +
      ((f.edgesInto b).map fun e =>
        departures (q.visits host state limit.toNat) i e.1 e.2).sum =
      executions (q.visits host state limit.toNat) i b := by
    by_cases hzero : b = 0
    · subst hzero
      rw [if_pos rfl, (hvalid f (List.mem_of_getElem? hf)).edgesInto_zero, List.map_nil,
        List.sum_nil, Nat.add_zero,
        executions_zero (Program.exists_passes_of_run_eq_ok hrun).1 (Program.visits_fit hrun)]
    · rw [if_neg hzero, Nat.zero_add, Program.executions_eq_sum hrun hg hrefines hb hzero]
  rw [hblock b hb, hsum]
  exact Nat.min_eq_left (Program.executions_le hrun i b)

namespace Instrumenter

variable {σ : Type} {ins : Instrumenter} {p q : Program} {main : ℕ} {host : Host σ} {state : σ}
  {args : List String} {m : Machine σ} {records : List Record}

/-- The edge records of a run are all the same, one for each entry of the entry function, and their
counts are bound to those of the run. -/
theorem edges_of_run {limit : UInt64} (hp : p.IsPlain) (hins : ins.instrument p = .ok q)
    (hs : .edge ∈ ins.strategies ∨ .edgeRank ∈ ins.strategies)
    (hmain : p.functionIndex? ins.entry = some main)
    (hrun : q.run host state limit.toNat args = (m, .ok records)) :
    ∃ counts, counts.length = p.edgeSlots ∧
      ((records.map Record.profile).map Profile.edgeCounts).reduceOption =
        List.replicate (activations (q.visits host state limit.toNat) main) counts ∧
      ∀ binding : Binding, binding.BoundEdges p counts →
        binding.CountsRun p (q.visits host state limit.toNat) := by
  obtain ⟨s, hmem, hcounts⟩ : ∃ s ∈ ins.strategies, s.countsEdges := by
    rcases hs with hs | hs
    · exact ⟨_, hs, .inl rfl⟩
    · exact ⟨_, hs, .inr rfl⟩
  obtain ⟨hvalid, -, hone, happly⟩ := instrument_eq_ok hmain hins
  obtain ⟨counters, rest, hpasses, hrest⟩ := Strategy.passes_of_countsEdges hcounts
  have hprofiled := applyAll_profiled hvalid hp.isOriginal hmem hcounts hone hpasses hrest happly
  obtain ⟨hgrows, -, -⟩ :=
    strategies_grow (List.length_map ..) p.copies_true (fun _ _ => trivial) happly
  obtain ⟨counts, ranks, hrecord, hlen, hslots⟩ :=
    (sized_of_run hp.isOriginal hins hmem hmain hrun).record_edges hcounts hpasses
  refine ⟨counts, hlen, parts_of_run hp.isUninstrumented hins hmem hmain hrun hrecord rfl
    (fun _ => rfl) ?_, fun binding hbinding => ?_⟩
  · -- no two strategies count edges
    intro t ht hts words ranks
    have hother : ¬t.countsEdges := by
      rintro (rfl | rfl) <;> rcases hcounts with rfl | rfl
      · exact hts rfl
      · exact hone ⟨ht, hmem⟩
      · exact hone ⟨hmem, ht⟩
      · exact hts rfl
    cases t with
    | edge => exact absurd (.inl rfl) hother
    | edgeRank => exact absurd (.inr rfl) hother
    | _ => rfl
  · exact hbinding.countsRun hvalid hprofiled hgrows.edited (hgrows.countsAlone hp hcounts hpasses)
      hrun hslots

/-- Edge profiling is exact: the records of a run of the instrumented program that enters the
entry function once can be added up and bound to the plain program, and what the binding
reports are the counts of the run. -/
theorem edgeProfile_exact (hp : p.IsPlain) (hins : ins.instrument p = .ok q)
    (hs : .edge ∈ ins.strategies ∨ .edgeRank ∈ ins.strategies) (host : Host σ) (state : σ)
    (limit : UInt64) (args : List String)
    (hrun : (q.run host state limit.toNat args).2 = .ok records)
    (hmain : p.functionIndex? ins.entry = some main)
    (honce : activations (q.visits host state limit.toNat) main = 1) :
    ∃ profile binding, Profile.ofRecords records = .ok profile ∧ profile.bind p = .ok binding ∧
      binding.CountsRun p (q.visits host state limit.toNat) := by
  obtain ⟨m, hm⟩ : ∃ m, q.run host state limit.toNat args = (m, .ok records) :=
    ⟨_, Prod.ext rfl hrun⟩
  obtain ⟨profile, binding, hprofile, hbinding⟩ := exists_bound_of_run hp.isUninstrumented hins hm
  -- one of the records alone holds counters of edges
  obtain ⟨counts, -, honly, hbound⟩ := edges_of_run hp hins hs hmain hm
  rw [honce] at honly
  have hedges := Profile.ofRecords_only (fun _ _ => rfl) rfl honly hprofile
  exact ⟨profile, binding, hprofile, hbinding,
    hbound binding (Profile.functions_of_bind hbinding hedges)⟩

end Instrumenter

/-- A loop that runs three times. One of its edges has to be split. -/
def countToThree : Program where
  functions := [
    ⟨"main", [
      ⟨"entry", [], .br 1⟩,
      ⟨"body", [.op "add" (some "i") [.var "i", .const 1],
        .op "lt" (some "again") [.var "i", .const 3]], .condBr (.var "again") 1 2⟩,
      ⟨"exit", [], .ret⟩]⟩]
  globals := []

def countToThreeCounted : Program where
  functions := [
    ⟨"main", [
      ⟨"entry", [Strategy.edge.registration, .increment "__commprof_edge_counters" 0,
        .increment "__commprof_edge_counters" 1], .br 1⟩,
      ⟨"body", [.op "add" (some "i") [.var "i", .const 1],
        .op "lt" (some "again") [.var "i", .const 3]], .condBr (.var "again") 3 2⟩,
      ⟨"exit", [.increment "__commprof_edge_counters" 3], .ret⟩,
      ⟨"body.body_crit_edge", [.increment "__commprof_edge_counters" 2], .br 1⟩]⟩]
  globals := [⟨"__commprof_edge_counters", .u64, 4, 0⟩]

theorem edgeProfile_countToThree :
    ∃ profile binding, Profile.ofRecords [.arguments ["loop"], .edges [1, 1, 2, 1] []] =
        .ok profile ∧ profile.bind countToThree = .ok binding ∧
      binding.CountsRun countToThree
        (countToThreeCounted.visits MpiProcess.host (.start 0 1 .zero) 100) := by
  have hins : Instrumenter.instrument ⟨[.edge], "main", []⟩ countToThree =
      .ok countToThreeCounted := rfl
  have hmain : countToThree.functionIndex? "main" = some 0 := rfl
  exact Instrumenter.edgeProfile_exact (by decide) hins (.inl (by decide)) MpiProcess.host
    (.start 0 1 .zero) 100 ["loop"] rfl hmain rfl

end FlowProfile
