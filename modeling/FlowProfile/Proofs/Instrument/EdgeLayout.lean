import FlowProfile.Proofs.Instrument.CriticalEdges
import FlowProfile.Proofs.Instrument.Installed

/-!
# The layout of edge counters

The array of the edges has a slot for each function with a body and for each edge, and each slot is
raised at one place of the instrumented program. Every critical edge of the plain program leads
through a block of its own, no other edge does, and no edge is critical any more.
-/

namespace FlowProfile

/-! ### One function -/

namespace Function

variable {f g : Function} {counters : String} {slot : ℕ}

/-- One edge is one more increment. -/
theorem countEdge_instCount {edge : BlockId × ℕ} (h : f.countEdge counters edge slot = .ok g)
    (k : ℕ) : g.instCount (Inst.bumps counters k) =
      f.instCount (Inst.bumps counters k) + if slot = k then 1 else 0 := by
  obtain ⟨b, succ⟩ := edge
  simp only [countEdge, Outcome.bind_eq_ok_iff, block_eq_ok_iff, Prod.exists] at h
  obtain ⟨mid, fresh, hsplit, block, hb, h⟩ := h
  have hsplitEdit : Edited True (fun _ => False) f mid := .splitCritical hsplit
  have hbumps : Inst.bumps counters k (.increment counters slot) = decide (slot = k) := by
    simp [Inst.bumps]
  rw [← hsplitEdit.instCount_eq fun _ hfalse => hfalse.elim]
  split at h
  · obtain ⟨block', hb', rfl⟩ := insertAtEnd_eq_ok_iff.mp h
    simp [instCount_insert hb' le_rfl, hbumps]
  · split at h
    · obtain ⟨block', hb', hi, rfl⟩ := insertAt_eq_ok_iff.mp h
      simp [instCount_insert hb' hi, hbumps]
    · cases h

theorem countEdgesFrom_instCount {edges : List (BlockId × ℕ)}
    (h : f.countEdgesFrom counters edges slot = .ok g) (k : ℕ) :
    g.instCount (Inst.bumps counters k) = f.instCount (Inst.bumps counters k) +
      if slot ≤ k ∧ k < slot + edges.length then 1 else 0 := by
  induction edges generalizing f slot with
  | nil =>
      obtain rfl : f = g := by simpa [countEdgesFrom] using h
      rw [if_neg (by simp), Nat.add_zero]
  | cons edge edges ih =>
      simp only [countEdgesFrom, Outcome.bind_eq_ok_iff] at h
      obtain ⟨mid, hmid, h⟩ := h
      rw [ih h, countEdge_instCount hmid, List.length_cons]
      split_ifs <;> omega

/-- The entry and the edges take consecutive slots. -/
theorem countEdges_instCount {limit : ℕ} (hdef : f.isDeclaration = false)
    (h : f.countEdges counters limit slot = .ok g) (k : ℕ) :
    g.instCount (Inst.bumps counters k) = f.instCount (Inst.bumps counters k) +
      if slot ≤ k ∧ k < slot + f.countedSlots limit then 1 else 0 := by
  simp only [countEdges, Outcome.bind_eq_ok_iff] at h
  obtain ⟨mid, hmid, h⟩ := h
  obtain ⟨block, hb, hi, rfl⟩ := insertAt_eq_ok_iff.mp hmid
  have hbumps : Inst.bumps counters k (.increment counters slot) = decide (slot = k) := by
    simp [Inst.bumps]
  have hslots : f.countedSlots limit = 1 + (f.edges limit).length := by
    rw [countedSlots, if_neg (by simp [hdef])]
  rw [countEdgesFrom_instCount h, instCount_insert hb hi, hbumps, hslots]
  simp only [decide_eq_true_eq]
  split_ifs <;> omega

end Function

/-! ### All functions -/

theorem countFunctions_instCount {counters : String} {functions : List (Function × ℕ)}
    {slot last : ℕ} {counted : List Function}
    (h : countFunctions counters functions slot = .ok (counted, last)) (k : ℕ) :
    (counted.map (·.instCount (Inst.bumps counters k))).sum =
      (functions.map (·.1.instCount (Inst.bumps counters k))).sum +
        if slot ≤ k ∧ k < slot + (functions.map fun x => x.1.countedSlots x.2).sum then 1
        else 0 := by
  induction functions generalizing slot counted with
  | nil =>
      obtain ⟨rfl, -⟩ : [] = counted ∧ slot = last := by simpa [countFunctions] using h
      rw [List.map_nil, List.map_nil, List.map_nil, List.sum_nil, if_neg (by omega)]
      rfl
  | cons x functions ih =>
      obtain ⟨f, limit⟩ := x
      obtain ⟨g, others, hg, hrest, rfl⟩ := countFunctions_cons h
      have hfirst : g.instCount (Inst.bumps counters k) = f.instCount (Inst.bumps counters k) +
          if slot ≤ k ∧ k < slot + f.countedSlots limit then 1 else 0 := by
        split at hg
        case isTrue hdecl =>
            rw [hg, Function.countedSlots, if_pos hdecl, if_neg (by omega), Nat.add_zero]
        case isFalse hdef => exact Function.countEdges_instCount (by simpa using hdef) hg k
      simp only [List.map_cons, List.sum_cons, hfirst, ih hrest]
      split_ifs <;> omega

namespace Program

variable {splitting : Prop} {added : Inst → Prop} {p q r : Program} {counters : String}

theorem countEdges_instCount {blocks : List ℕ} (hblocks : blocks.length = p.functions.length)
    (h : p.countEdges blocks counters = .ok q) (k : ℕ) :
    q.instCount (Inst.bumps counters k) = p.instCount (Inst.bumps counters k) +
      if k < (Pass.edges counters).size blocks p then 1 else 0 := by
  simp only [countEdges, Outcome.bind_eq_ok_iff, declare_eq_ok_iff, Outcome.pure_eq_ok_iff,
    Prod.exists] at h
  obtain ⟨len, -, mid, ⟨-, rfl⟩, counted, inserted, hcounted, -, -, rfl⟩ := h
  have hsum := countFunctions_instCount hcounted k
  have hfunctions : (p.functions.zip blocks).map (·.1.instCount (Inst.bumps counters k)) =
      p.functions.map (·.instCount (Inst.bumps counters k)) := by
    have hfst : (p.functions.zip blocks).map Prod.fst = p.functions := List.map_fst_zip hblocks.ge
    conv_rhs => rw [← hfst, List.map_map]
    rfl
  rw [hfunctions] at hsum
  simp only [Nat.zero_le, Nat.zero_add, true_and] at hsum
  exact hsum

/-- The functions whose edges are counted are separated from those of the plain program. -/
theorem countEdges_separated (hvalid : p.IsValid) (hedit : p.Edited False added q)
    (h : q.countEdges p.blockCounts counters = .ok r) {i : ℕ} {f g : Function}
    (hf : p.functions[i]? = some f) (hg : r.functions[i]? = some g) :
    f.Separated (f.edges f.blocks.length) g := by
  have hlen : p.blockCounts.length = q.functions.length := by
    rw [hedit.length_eq, blockCounts, List.length_map]
  obtain ⟨mid, hmid, hfm⟩ := hedit.exists_right hf
  obtain ⟨limit, g', hlimit, hg', hcase⟩ := (countEdges_eq_ok hlen h).2.2.2 i mid hmid
  obtain rfl : g = g' := Option.some.inj (hg.symm.trans hg')
  obtain rfl : f.blocks.length = limit := by simpa [blockCounts, hf] using hlimit
  have hterm := hfm.terminators_eq
  split at hcase
  case isTrue hdecl =>
      have hnil : f.blocks = [] := by
        rwa [hfm.isDeclaration_eq, Function.isDeclaration, List.isEmpty_iff] at hdecl
      have hedges : f.edges f.blocks.length = [] := by simp [Function.edges, hnil]
      rw [hedges, hcase]
      exact (Function.Separated.nil f).congr_right hterm
  case isFalse hdef =>
      rw [← Function.length_blocks_congr hterm] at hcase
      have hseparated := Function.countEdges_separated
        (hfm.isValid (hvalid f (List.mem_of_getElem? hf))) hcase
      rw [Function.length_blocks_congr hterm, Function.edges_congr hterm] at hseparated
      exact hseparated.congr hterm

/-- Computations and calls alone. -/
def CountsNothing (p : Program) : Prop :=
  ∀ f ∈ p.functions, ∀ block ∈ f.blocks, ∀ inst ∈ block.insts, inst.isOwn = true

instance (p : Program) : Decidable p.CountsNothing :=
  inferInstanceAs (Decidable (∀ f ∈ p.functions, ∀ block ∈ f.blocks, ∀ inst ∈ block.insts, _))

theorem CountsNothing.isOwn (hp : p.CountsNothing) {inst : Inst} (h : p.HasInst inst) :
    inst.isOwn = true := by
  obtain ⟨function, b, block, hb, hmem⟩ := h
  obtain ⟨f, hf, hb⟩ := block?_eq_some_iff.mp hb
  exact hp f (List.mem_of_getElem? hf) block (List.mem_of_getElem? hb) inst hmem

theorem CountsNothing.instCount_bumps (hp : p.CountsNothing) (counters : String) (slot : ℕ) :
    p.instCount (Inst.bumps counters slot) = 0 := by
  refine instCount_eq_zero fun inst hinst => ?_
  have hown := hp.isOwn hinst
  cases inst <;> simp_all [Inst.isOwn, Inst.bumps]

/-- One slot for each function with a body, and one for each edge. -/
theorem edgeSlots_eq (p : Program) : p.edgeSlots = p.definedFunctions.length +
    (p.functions.map fun f => (f.blocks.map (·.terminator.successors.length)).sum).sum := by
  rw [sum_map_definedFunctions, definedFunctions,
    ← sum_map_zipIdx p.functions fun f => (f.blocks.map (·.terminator.successors.length)).sum,
    ← sum_map_zipIdx p.functions Function.slots]
  induction p.functions.zipIdx with
  | nil => rfl
  | cons x xs ih =>
      rw [List.map_cons, List.map_cons, List.sum_cons, List.sum_cons, ih]
      cases hdecl : x.1.isDeclaration with
      | true =>
          have hnil : x.1.blocks = [] := List.isEmpty_iff.mp hdecl
          have hslots : x.1.slots = 0 := if_pos hdecl
          simp [hdecl, hnil, hslots]
      | false =>
          rw [Function.slots_eq hdecl, Function.length_edges_take, List.take_length,
            List.filter_cons_of_pos (by simp [hdecl]), List.length_cons]
          omega

end Program

namespace Instrumenter

variable {ins : Instrumenter} {p q : Program} {main : ℕ}

/-- The array of the edges has one slot for each function with a body and for each edge, and each
slot is raised at one place. The critical edges alone got blocks, one each, and no edge is critical
any more. -/
theorem instrument_edgeLayout {s : Strategy} {counters : String} (hp : p.CountsNothing)
    (hmain : p.functionIndex? ins.entry = some main) (hs : s ∈ ins.strategies)
    (hpass : Pass.edges counters ∈ s.passes) (h : ins.instrument p = .ok q) :
    q.Declares ⟨counters, .u64, p.edgeSlots, 0⟩ ∧
      p.edgeSlots = p.definedFunctions.length +
        (p.functions.map fun f => (f.blocks.map (·.terminator.successors.length)).sum).sum ∧
      (∀ slot, q.instCount (Inst.bumps counters slot) = if slot < p.edgeSlots then 1 else 0) ∧
      List.Forall₂ (fun f g => f.Separated (f.edges f.blocks.length) g) p.functions q.functions ∧
      ∀ g ∈ q.functions, ∀ b succ, g.isCritical b succ = false := by
  obtain ⟨hvalid, -, hone, hall⟩ := instrument_eq_ok hmain h
  obtain ⟨before, counted, hbefore, hcount, hafter, hdeclares⟩ :=
    applyAll_countEdges hone hs hpass hall
  have hlen : p.blockCounts.length = before.functions.length := by
    rw [hbefore.length_eq, Program.blockCounts, List.length_map]
  have hsize := (slotsBefore_blockCounts hbefore 0 counters).2
  obtain ⟨hfresh, hglobals, hcounts, -⟩ := Program.countEdges_eq_ok hlen hcount
  have hnone : ∀ slot, ∀ inst, Inst.CountsNoEdge inst → Inst.bumps counters slot inst = false :=
    fun slot _ hinst => hinst counters slot
  have hseparated : ∀ (i : ℕ) (f g : Function), p.functions[i]? = some f →
      q.functions[i]? = some g → f.Separated (f.edges f.blocks.length) g := by
    intro i f g hf hg
    obtain ⟨mid, hmid, hmg⟩ := hafter.exists_left hg
    exact (Program.countEdges_separated hvalid hbefore hcount hf hmid).congr_right
      hmg.terminators_eq
  have hlength : q.functions.length = p.functions.length :=
    hafter.length_eq.trans (hcounts.trans hbefore.length_eq)
  refine ⟨hdeclares _ ?_, p.edgeSlots_eq, fun slot => ?_, ?_, fun g hg b succ => ?_⟩
  · rw [hsize] at hglobals
    exact Program.declares_of_append hfresh hglobals
  · rw [hafter.instCount_eq (hnone slot), Program.countEdges_instCount hlen hcount, hsize,
      hbefore.instCount_eq (hnone slot), hp.instCount_bumps, Nat.zero_add]
  · exact List.forall₂_iff_get.mpr ⟨hlength.symm, fun i hi hi' =>
      hseparated i _ _ (List.getElem?_eq_getElem hi) (List.getElem?_eq_getElem hi')⟩
  · obtain ⟨i, hi⟩ := List.mem_iff_getElem?.mp hg
    have hlt : i < p.functions.length := hlength ▸ (List.getElem?_eq_some_iff.mp hi).1
    exact (hseparated i _ g (List.getElem?_eq_getElem hlt) hi).isCritical_eq_false b succ

end Instrumenter

/-- Both edges of the branch lead to the same block, and so does the loop on it. -/
def parallel : Program where
  functions := [
    ⟨"main", [
      ⟨"entry", [], .condBr (.var "x") 1 1⟩,
      ⟨"loop", [.call (.direct "step") []], .switch (.var "y") 2 [(0, 1), (1, 1)]⟩,
      ⟨"exit", [], .ret⟩]⟩,
    ⟨"step", []⟩]
  globals := []

/-- Four of the five edges get blocks. -/
theorem instrument_edgeLayout_parallel :
    ∃ q, (⟨[.comm, .edgeRank], "main", []⟩ : Instrumenter).instrument parallel = .ok q ∧
      q.Declares ⟨"__commprof_edge_rank_counters", .u64, 6, 0⟩ ∧
      (∀ slot, q.instCount (Inst.bumps "__commprof_edge_rank_counters" slot) =
        if slot < 6 then 1 else 0) ∧
      (∀ g ∈ q.functions, ∀ b succ, g.isCritical b succ = false) ∧
      q.blockCounts = [7, 0] := by
  have hins : (⟨[.comm, .edgeRank], "main", []⟩ : Instrumenter).instrument parallel = .ok _ := rfl
  obtain ⟨hdeclares, -, hslots, -, hcritical⟩ := Instrumenter.instrument_edgeLayout
    (by decide) rfl (List.mem_cons_of_mem _ List.mem_cons_self) List.mem_cons_self hins
  exact ⟨_, hins, hdeclares, hslots, hcritical, rfl⟩

end FlowProfile
