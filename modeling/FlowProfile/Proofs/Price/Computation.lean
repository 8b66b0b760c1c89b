import FlowProfile.Price.Analyzer
import FlowProfile.Proofs.Outcome

/-!
# The price of computation

What blocks and library calls cost depends on the program and on the executions of its blocks. The
sources for communication write other fields, and change none of those that the others read.
-/

namespace FlowProfile.Price

/-- A report without all that communication comes to. -/
def Report.computation (r : Report) : Report :=
  { r with
    mpiNs := 0
    mpiCalls := 0
    commAmount := 0
    realMpiSeconds := 0
    realWaitSeconds := 0
    fittingNs := 0
    breakdown := r.breakdown.map fun d => { d with calls := [] } }

theorem Report.computation_empty (verbose : Bool) :
    (empty verbose).computation = empty verbose := by
  cases verbose <;> rfl

/-- Is it a source for blocks or for library calls? -/
def Source.isComputation (s : Source) : Bool := s.kind ≠ .mpi

namespace Analyzer

/-- The same analyzer without the sources for communication. -/
def computing (a : Analyzer) : Analyzer :=
  { a with sources := a.sources.filter Source.isComputation }

variable {a : Analyzer} {b x y : Binding} {r r' : Report}

/-! ### One source -/

theorem priceBlocks_computation (costs : InstructionCosts) :
    a.priceBlocks b costs r.computation = (a.priceBlocks b costs r).map Report.computation := by
  unfold priceBlocks
  cases hsum : ((a.counted b).flatMap (·.blocks)).foldlM addInstructions r.instructions with
  | error failure =>
      simp only [Report.computation, hsum]
      rfl
  | ok instructions =>
      simp only [Report.computation, hsum]
      cases r.breakdown with
      | none => rfl
      | some d =>
          simp only [Option.map_some, Option.mapM_some]
          cases ((a.counted b).flatMap (·.blocks)).foldlM (addOpcodes costs) d.opcodes <;> rfl

/-- The price of blocks and library calls is the same whatever communication came to. -/
theorem price_computation {s : Source} (hs : s.isComputation = true) :
    a.price b r.computation s = (a.price b r s).map Report.computation := by
  cases s with
  | block costs => exact priceBlocks_computation costs
  | mpi costs => simp [Source.isComputation, Source.kind] at hs
  | libcall costs => rfl

/-- Communication changes nothing of the price of computation. -/
theorem computation_of_priceCalls {costs : CommCosts} (h : a.priceCalls b costs r = .ok r') :
    r'.computation = r.computation := by
  simp only [priceCalls, Outcome.bind_eq_ok_iff, Outcome.pure_eq_ok_iff] at h
  obtain ⟨mpiCalls, -, rfl⟩ := h
  simp only [Report.computation]
  cases r.breakdown <;> rfl

/-- Without calls that were counted no sum of counts can be too large. -/
theorem exists_priceCalls (hb : b.trapped = []) (costs : CommCosts) (r : Report) :
    ∃ r', a.priceCalls b costs r = .ok r' := by
  simp [priceCalls, hb]

/-! ### All sources -/

theorem foldlM_computation_of_ok {sources : List Source}
    (h : sources.foldlM (a.price b) r = .ok r') :
    (sources.filter Source.isComputation).foldlM (a.price b) r.computation =
      .ok r'.computation := by
  induction sources generalizing r with
  | nil =>
      obtain rfl : r = r' := by simpa using h
      rfl
  | cons s sources ih =>
      rw [List.foldlM_cons, Outcome.bind_eq_ok_iff] at h
      obtain ⟨mid, hmid, h⟩ := h
      cases hs : s.isComputation with
      | true =>
          rw [List.filter_cons_of_pos hs, List.foldlM_cons, price_computation hs, hmid]
          exact ih h
      | false =>
          rw [List.filter_cons_of_neg (by simp [hs])]
          cases s with
          | mpi costs => exact computation_of_priceCalls hmid ▸ ih h
          | block costs => cases hs
          | libcall costs => cases hs

theorem foldlM_computation_of_trapped (hb : b.trapped = []) (sources : List Source) (r : Report) :
    (sources.filter Source.isComputation).foldlM (a.price b) r.computation =
      (sources.foldlM (a.price b) r).map Report.computation := by
  induction sources generalizing r with
  | nil => rfl
  | cons s sources ih =>
      rw [List.foldlM_cons]
      cases hs : s.isComputation with
      | true =>
          rw [List.filter_cons_of_pos hs, List.foldlM_cons, price_computation hs]
          cases a.price b r s with
          | error failure => rfl
          | ok mid => exact ih mid
      | false =>
          rw [List.filter_cons_of_neg (by simp [hs])]
          cases s with
          | mpi costs =>
              obtain ⟨mid, hmid⟩ := exists_priceCalls hb costs r
              rw [← computation_of_priceCalls hmid, ih mid, price, hmid]
              rfl
          | block costs => cases hs
          | libcall costs => cases hs

/-- The first source of each kind is the same among those of some kinds. -/
theorem firsts_filter (sources : List Source) {seen seen' : List Kind}
    (h : ∀ kind, kind ≠ .mpi → (kind ∈ seen ↔ kind ∈ seen')) :
    firsts seen' (sources.filter Source.isComputation) =
      (firsts seen sources).filter Source.isComputation := by
  induction sources generalizing seen seen' with
  | nil => rfl
  | cons s sources ih =>
      have hcons : ∀ kind, kind ≠ .mpi → (kind ∈ s.kind :: seen ↔ kind ∈ s.kind :: seen') := by
        intro kind hkind
        rw [List.mem_cons, List.mem_cons, h kind hkind]
      by_cases hs : s.kind = .mpi
      · have hfilter : s.isComputation = false := by simp [Source.isComputation, hs]
        rw [List.filter_cons_of_neg (by simp [hfilter]), firsts]
        split
        · exact ih h
        · rw [List.filter_cons_of_neg (by simp [hfilter])]
          refine ih fun kind hkind => ?_
          rw [List.mem_cons, ← h kind hkind, hs]
          exact ⟨fun hmem => hmem.resolve_left hkind, .inr⟩
      · have hfilter : s.isComputation = true := by simp [Source.isComputation, hs]
        rw [List.filter_cons_of_pos hfilter, firsts, firsts]
        by_cases hmem : s.kind ∈ seen
        · rw [if_pos hmem, if_pos ((h _ hs).mp hmem)]
          exact ih h
        · rw [if_neg hmem, if_neg (mt (h _ hs).mpr hmem), List.filter_cons_of_pos hfilter, ih hcons]

theorem run_computing : a.computing.run b =
    ((firsts [] a.sources).filter Source.isComputation).foldlM (a.price b)
      (Report.empty a.verbose).computation := by
  rw [Report.computation_empty, ← firsts_filter a.sources fun _ _ => Iff.rfl]
  rfl

/-- What the sources for blocks and library calls come to does not depend on the other sources. -/
theorem run_computing_of_ok (h : a.run b = .ok r) : a.computing.run b = .ok r.computation := by
  rw [run_computing]
  exact foldlM_computation_of_ok h

theorem run_computing_of_trapped (hb : b.trapped = []) :
    a.computing.run b = (a.run b).map Report.computation := by
  rw [run_computing]
  exact foldlM_computation_of_trapped hb _ _

/-! ### Two bindings -/

/-- What is counted depends on the executions of the functions that are not ignored. -/
theorem counted_congr (hprogram : y.program = x.program)
    (hcount : ∀ f i, x.program.functions[i]? = some f → f.name ∉ a.ignore →
      ∀ block, y.executionCount i block = x.executionCount i block) :
    a.counted y = a.counted x := by
  unfold counted
  rw [hprogram]
  refine List.map_congr_left fun ⟨f, i⟩ hmem => ?_
  obtain ⟨hdefined, hkept⟩ := List.mem_filter.mp hmem
  have hf := List.mk_mem_zipIdx_iff_getElem?.mp (List.mem_of_mem_filter hdefined)
  simp only [hcount f i hf (of_decide_eq_true hkept)]

/-- The executions of blocks determine the price of computation, or that it cannot be told. -/
theorem run_computing_congr (hprogram : y.program = x.program)
    (hcount : ∀ i block, y.executionCount i block = x.executionCount i block) :
    a.computing.run y = a.computing.run x := by
  rw [run_computing, run_computing]
  refine Outcome.foldlM_congr (fun s hs r => ?_) _
  have hcounted : a.counted y = a.counted x := counted_congr hprogram fun _ i _ _ => hcount i
  cases s with
  | block costs => simp only [price, priceBlocks, hcounted]
  | libcall costs => simp only [price, priceLibrary, hcounted]
  | mpi costs => cases (List.mem_filter.mp hs).2

end Analyzer

end FlowProfile.Price
