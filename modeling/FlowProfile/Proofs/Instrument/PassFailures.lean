import FlowProfile.Proofs.Instrument.Instrumented
import FlowProfile.Proofs.Instrument.PayloadTraps
import FlowProfile.Proofs.Instrument.TimedCalls

/-!
# When a pass fails

Whatever was done to a program before, every place is still there when something is inserted at it,
every edge still has its successor, and every trapped call is still a call. So a pass whose array
fits a word fails because there is such an array already, or because a weight has no block.
-/

namespace FlowProfile

/-! ### Places -/

namespace Function

variable {splitting : Prop} {added : Inst → Prop} {f g : Function} {counters : String} {slot : ℕ}

theorem Edited.length_successors (h : f.Edited splitting added g) {b : BlockId}
    (hb : b < f.blocks.length) : (g.successors b).length = (f.successors b).length := by
  induction h with
  | refl => rfl
  | insert _ _ _ _ ih => rw [successors_insert, ih]
  | split h _ _ _ _ _ _ ih => rw [length_successors_split (hb.trans_le h.length_le), ih]

/-- Splits add edges to new blocks alone. -/
theorem Edited.length_edges (h : f.Edited splitting added g) :
    (g.edges f.blocks.length).length = (f.edges f.blocks.length).length := by
  have hblocks : (g.blocks.take f.blocks.length).map (·.terminator.successors.length) =
      (f.blocks.take f.blocks.length).map (·.terminator.successors.length) := by
    have hlen := h.length_le
    apply List.ext_getElem
    · simpa using hlen
    · intro b hb hb'
      have hf : b < f.blocks.length := by simpa using hb'
      have hsucc := h.length_successors hf
      rw [successors_eq (List.getElem?_eq_getElem hf),
        successors_eq (List.getElem?_eq_getElem (hf.trans_le hlen))] at hsucc
      simpa using hsucc
  rw [length_edges_take, length_edges_take, hblocks]

theorem Edited.countedSlots_eq (h : f.Edited splitting added g) :
    g.countedSlots f.blocks.length = f.slots := by
  rw [← countedSlots_eq_slots, countedSlots, countedSlots, h.isDeclaration_eq, h.length_edges]

theorem insertAt_eq_ok {b : BlockId} {block : Block} {index : ℕ} (inst : Inst)
    (hb : f.blocks[b]? = some block) (hi : index ≤ block.insts.length) :
    f.insertAt b index inst = .ok (f.insert b index inst) :=
  insertAt_eq_ok_iff.mpr ⟨block, hb, hi, rfl⟩

variable (counters slot) in
/-- Every edge of a valid function can be counted. -/
theorem exists_countEdge (hf : f.IsValid) {edge : BlockId × ℕ} (hedge : f.HasEdge edge) :
    ∃ g, f.countEdge counters edge slot = .ok g := by
  obtain ⟨b, succ⟩ := edge
  have hlt : b < f.blocks.length := hedge.lt
  have hsplit : ∃ mid fresh, f.splitCritical b succ = .ok (mid, fresh) := by
    cases hc : f.isCritical b succ with
    | false => exact ⟨_, _, splitCritical_of_not hlt hc⟩
    | true =>
        obtain ⟨_, _, _, -, -, hsplit⟩ := splitCritical_of_isCritical hf.not_dangles hc
        exact ⟨_, _, hsplit⟩
  obtain ⟨mid, fresh, hmid⟩ := hsplit
  have hedited : f.Edited True (fun _ => False) mid := .splitCritical hmid
  have hb : b < mid.blocks.length := hlt.trans_le hedited.length_le
  have hblock := List.getElem?_eq_getElem hb
  have hsucc : succ < mid.blocks[b].terminator.successors.length := by
    rw [← successors_eq hblock, hedited.length_successors hlt]
    exact hedge
  have hdest := List.getElem?_eq_getElem hsucc
  have hplace := (hedited.isValid hf _ (List.mem_of_getElem? hblock) _
    (List.mem_of_getElem? hdest)).1
  simp only [countEdge, hmid, block_eq_ok_iff.mpr hblock, Outcome.ok_bind, hdest]
  split
  · exact ⟨_, insertAtEnd_eq_ok_iff.mpr ⟨_, hblock, rfl⟩⟩
  · exact ⟨_, insertAt_eq_ok _ (List.getElem?_eq_getElem hplace) (Nat.zero_le _)⟩

variable (counters slot) in
theorem exists_countEdgesFrom {edges : List (BlockId × ℕ)} (hf : f.IsValid)
    (hedges : ∀ e ∈ edges, f.HasEdge e) : ∃ g, f.countEdgesFrom counters edges slot = .ok g := by
  induction edges generalizing f slot with
  | nil => exact ⟨f, rfl⟩
  | cons edge edges ih =>
      rw [List.forall_mem_cons] at hedges
      obtain ⟨mid, hmid⟩ := exists_countEdge counters slot hf hedges.1
      have hstep := countEdge_step hf hedges.1 hmid
      obtain ⟨g, hg⟩ := ih (slot + 1) hstep.valid
        fun e he => hstep.edges e (hedges.2 e he)
      refine ⟨g, ?_⟩
      rw [countEdgesFrom, hmid]
      exact hg

variable (counters slot) in
theorem exists_countEdges (hf : f.IsValid) (hdecl : f.isDeclaration = false) (limit : ℕ) :
    ∃ g, f.countEdges counters limit slot = .ok g := by
  have hentry : 0 < f.blocks.length := by
    simpa [isDeclaration, List.isEmpty_eq_false_iff, ← List.length_pos_iff] using hdecl
  have hmid : f.insertAtStart 0 (.increment counters slot) = _ :=
    insertAt_eq_ok (.increment counters slot) (List.getElem?_eq_getElem hentry) (Nat.zero_le _)
  have hedges : ∀ e ∈ f.edges limit, (f.insert 0 0 (.increment counters slot)).HasEdge e :=
    fun e he => (mem_edges.mp he).2.insert
  obtain ⟨g, hg⟩ := exists_countEdgesFrom counters (slot + 1)
    ((isValid_congr (terminators_insert ..)).mpr hf) hedges
  refine ⟨g, ?_⟩
  rw [countEdges, hmid]
  exact hg

end Function

theorem exists_countFunctions (counters : String) {functions : List (Function × ℕ)}
    (h : ∀ x ∈ functions, x.1.IsValid) (slot : ℕ) :
    ∃ counted, countFunctions counters functions slot =
      .ok (counted, slot + (functions.map fun x => x.1.countedSlots x.2).sum) := by
  induction functions generalizing slot with
  | nil => exact ⟨[], rfl⟩
  | cons x functions ih =>
      obtain ⟨f, limit⟩ := x
      rw [List.forall_mem_cons] at h
      obtain ⟨others, hothers⟩ := ih h.2 (slot + f.countedSlots limit)
      rw [List.map_cons, List.sum_cons, ← Nat.add_assoc]
      cases hdecl : f.isDeclaration with
      | true =>
          refine ⟨f :: others, ?_⟩
          simp only [countFunctions, hdecl, if_true, hothers]
          rfl
      | false =>
          obtain ⟨g, hg⟩ := Function.exists_countEdges counters slot h.1 hdecl limit
          refine ⟨g :: others, ?_⟩
          simp only [countFunctions, hdecl, Bool.false_eq_true, if_false, hg, hothers]
          rfl

/-! ### Passes -/

/-- Why a weight has no block. Of several functions of one name the first is weighed. -/
inductive Program.Misplaces (p : Program) (w : BlockWeight) : Cause → Prop where
  | unknownFunction (h : p.function? w.function = none) :
      Misplaces p w (.unknownWeightFunction w.function)
  | outOfRange {f : Function} (hf : p.function? w.function = some f)
      (h : f.blocks.length ≤ w.block) :
      Misplaces p w (.weightOutOfRange w.block w.function f.blocks.length)

namespace Program

variable {splitting : Prop} {added : Inst → Prop} {p q r : Program} {counters : String}
  {failure : Failure}

theorem declare_eq_error_iff {g : Global} :
    p.declare g = .error failure ↔
      p.global? g.name ≠ none ∧ failure = .error [] (.counterExists g.name) := by
  unfold declare
  cases p.global? g.name with
  | none => simp
  | some other => simp [Outcome.fail, eq_comm]

/-- An array that is there already is the only reason for which a pass fails if its size fits a
word and all that it inserts has a place. -/
theorem declare_bind_eq_error {g : Global} {k : Program → Outcome Program}
    (hrest : ∀ r, r.functions = p.functions → ∃ q, k r = .ok q)
    (h : (p.declare g >>= k) = .error failure) :
    p.global? g.name ≠ none ∧ failure = .error [] (.counterExists g.name) := by
  rw [Outcome.bind_eq_error_iff, declare_eq_error_iff] at h
  refine h.resolve_right ?_
  rintro ⟨r, hr, hk⟩
  obtain ⟨-, hr⟩ := declare_eq_ok_iff.mp hr
  exact Outcome.ok_ne_error (hrest r (by rw [hr])) hk

theorem narrow_eq_ok {n : ℕ} (h : n < 2 ^ 32) (cause : Cause) : narrow n cause = .ok n :=
  narrow_eq_ok_iff.mpr ⟨h, rfl⟩

theorem exists_update {i : ℕ} {f : Function} (change : Function → Outcome Function)
    (hf : p.functions[i]? = some f) (h : ∃ g, change f = .ok g) :
    ∃ q, p.update i change = .ok q := by
  obtain ⟨g, hg⟩ := h
  exact ⟨_, update_eq_ok_iff.mpr ⟨f, g, hf, hg, rfl⟩⟩

theorem update_insertAt_eq_ok {i : ℕ} {b : BlockId} {block : Block} {index : ℕ}
    (hb : p.block? i b = some block) (hi : index ≤ block.insts.length) (inst : Inst) :
    (p.update i fun f => f.insertAt b index inst) = .ok (p.insert i b index inst) := by
  obtain ⟨f, hf, hb⟩ := block?_eq_some_iff.mp hb
  refine update_eq_ok_iff.mpr ⟨f, _, hf, Function.insertAt_eq_ok inst hb hi, ?_⟩
  simp [insert, List.modify_eq_set_getElem?, hf]

/-- A place stays a place. -/
theorem Edited.exists_place (h : p.Edited splitting added q) {i : ℕ} {b : BlockId} {block : Block}
    {index : ℕ} (hb : p.block? i b = some block) (hi : index ≤ block.insts.length) :
    ∃ block', q.block? i b = some block' ∧ index ≤ block'.insts.length := by
  refine h.block_insts (index ≤ ·.length) (fun insts j inst _ hle => ?_) hb hi
  rw [List.length_insertIdx]
  split <;> omega

/-- A call has a place behind it. -/
theorem exists_place_of_mem_callSites {c : CallSite} (h : c ∈ p.callSites) :
    ∃ block, p.block? c.function c.block = some block ∧ c.inst + 1 ≤ block.insts.length := by
  obtain ⟨block, hb, hi⟩ := mem_callSites.mp h
  exact ⟨block, hb, (List.getElem?_eq_some_iff.mp hi).1⟩

theorem exists_place_of_mem_payloadSites {s : Comm.PayloadSite} (h : s ∈ p.payloadSites) :
    ∃ block, p.block? s.function s.block = some block ∧ s.inst + 1 ≤ block.insts.length := by
  obtain ⟨c, hc, hs⟩ := List.mem_filterMap.mp h
  obtain ⟨hfunction, hblock, hinst⟩ := Comm.PayloadSite.place_of_ofCall? hs
  rw [hfunction, hblock, hinst]
  exact exists_place_of_mem_callSites hc

theorem exists_place_of_mem_timedSites {s : Comm.Site} (h : s ∈ p.timedSites) :
    ∃ block, p.block? s.function s.block = some block ∧ s.inst + 1 ≤ block.insts.length := by
  obtain ⟨c, hc, hs⟩ := List.mem_filterMap.mp h
  obtain ⟨hfunction, hblock, hinst⟩ := Comm.Site.place_of_ofCall? hs
  rw [hfunction, hblock, hinst]
  exact exists_place_of_mem_callSites hc

/-- What is inserted behind a call, or in another block, leaves the call where it is. -/
theorem mem_callSites_insert {c : CallSite} (h : c ∈ p.callSites) {function index : ℕ}
    {b : BlockId} (hbehind : function = c.function → b = c.block → c.inst < index) (inst : Inst) :
    c ∈ (p.insert function b index inst).callSites := by
  obtain ⟨block, hb, hi⟩ := mem_callSites.mp h
  by_cases hplace : function = c.function ∧ b = c.block
  · obtain ⟨rfl, rfl⟩ := hplace
    refine mem_callSites.mpr ⟨_, block?_insert_self hb .., ?_⟩
    rw [List.getElem?_insertIdx_of_lt (hbehind rfl rfl), hi]
  · exact mem_callSites.mpr ⟨block, (block?_insert_ne hplace ..).trans hb, hi⟩

/-- Sites are trapped from the last to the first, so that each is still a site when its turn
comes. -/
theorem mem_payloadSites_of_trapped {declared mid : Program}
    (hfunctions : declared.functions = p.functions)
    {trapped rest : List (Comm.PayloadSite × ℕ)} {s : Comm.PayloadSite} {i : ℕ}
    (hsites : p.payloadSites.zipIdx.reverse = trapped ++ (s, i) :: rest)
    (h : trapped.foldlM (trapPayload counters) declared = .ok mid) : s ∈ mid.payloadSites := by
  have hs : (s, i) ∈ p.payloadSites.zipIdx :=
    List.mem_reverse.mp (hsites ▸ List.mem_append_right _ List.mem_cons_self)
  obtain ⟨c, hc, hcs⟩ := List.mem_filterMap.mp (List.fst_mem_of_mem_zipIdx hs)
  obtain ⟨hfunction, hblock, hinst⟩ := Comm.PayloadSite.place_of_ofCall? hcs
  have hlater : ∀ x ∈ trapped, s.function = x.1.function → s.block = x.1.block →
      s.inst < x.1.inst := by
    have hbefore := p.payloadSites_before
    rw [← List.zipIdx_map_fst 0 p.payloadSites, List.pairwise_map, ← List.pairwise_reverse, hsites,
      List.pairwise_append] at hbefore
    exact fun x hx => hbefore.2.2 x hx (s, i) List.mem_cons_self
  refine List.mem_filterMap.mpr ⟨c, ?_, hcs⟩
  refine Outcome.foldlM_invariant (c ∈ ·.callSites) ?_ (by rwa [callSites, hfunctions]) h
  rintro ⟨t, j⟩ ht q q' hq hstep
  obtain ⟨rfl, -⟩ := trapPayload_eq_ok hstep
  refine mem_callSites_insert hq (fun hfunction' hblock' => Nat.lt_succ_of_lt ?_) _
  rw [← hinst]
  exact hlater (t, j) ht (hfunction.trans hfunction'.symm) (hblock.trans hblock'.symm)

theorem exists_trapPayload {s : Comm.PayloadSite} {i : ℕ} {block : Block} (hi : 2 * i < 2 ^ 32)
    (hb : p.block? s.function s.block = some block) (hplace : s.inst + 1 ≤ block.insts.length) :
    ∃ q, trapPayload counters p (s, i) = .ok q := by
  rw [trapPayload, narrow_eq_ok hi]
  exact ⟨_, update_insertAt_eq_ok hb hplace _⟩

theorem exists_trapTimed {s : Comm.Site} {i : ℕ} {block : Block} (hi : i < 2 ^ 32)
    (hb : p.block? s.function s.block = some block) (hplace : s.inst + 1 ≤ block.insts.length) :
    ∃ q, trapTimed counters p (s, i) = .ok q := by
  obtain ⟨f, hf, hb⟩ := block?_eq_some_iff.mp hb
  have hstop : f.insertAfter s.block s.inst (.timerStop counters i) = _ :=
    Function.insertAt_eq_ok _ hb hplace
  have hblock := Function.getElem?_insert f s.block (s.inst + 1) (.timerStop counters i) s.block
  rw [hb, Option.map_some, if_pos rfl] at hblock
  have hle : s.inst ≤ (block.insts.insertIdx (s.inst + 1) (.timerStop counters i)).length := by
    rw [List.length_insertIdx_of_le_length hplace]
    omega
  have hstart := Function.insertAt_eq_ok .timerStart hblock hle
  rw [trapTimed, narrow_eq_ok hi]
  exact exists_update _ hf ⟨_, by rw [hstop]; exact hstart⟩

/-- Traps can be inserted at all places behind the calls of a program, one after another. -/
theorem exists_traps {α : Type} {sites : List α} {step : Program → α × ℕ → Outcome Program}
    (hstep : ∀ i s, sites[i]? = some s → ∀ q, p.Edited False (fun _ => True) q →
      ∃ q', step q (s, i) = .ok q')
    (hedit : ∀ x q q', step q x = .ok q' → q.Edited False (fun _ => True) q')
    (hr : r.functions = p.functions) : ∃ q, sites.zipIdx.reverse.foldlM step r = .ok q := by
  have hall : ∀ x ∈ sites.zipIdx.reverse, ∀ q, p.Edited False (fun _ => True) q →
      ∃ q', step q x = .ok q' ∧ p.Edited False (fun _ => True) q' := by
    rintro ⟨s, i⟩ hmem q hq
    have hs := List.mk_mem_zipIdx_iff_getElem?.mp (List.mem_reverse.mp hmem)
    obtain ⟨q', hq'⟩ := hstep i s hs q hq
    exact ⟨q', hq', hq.trans (hedit (s, i) q q' hq')⟩
  obtain ⟨q, hq, -⟩ := Outcome.exists_foldlM _ hall (.of_functions_eq hr)
  exact ⟨q, hq⟩

theorem trapComm_eq_error (hsize : 2 * p.payloadSites.length < 2 ^ 32)
    (h : p.trapComm counters = .error failure) :
    p.global? counters ≠ none ∧ failure = .error [] (.counterExists counters) := by
  rw [trapComm, narrow_eq_ok hsize, Outcome.ok_bind] at h
  refine declare_bind_eq_error (fun r hr => exists_traps ?_ ?_ hr) h
  · intro i s hs q hq
    have hi := (List.getElem?_eq_some_iff.mp hs).1
    obtain ⟨_, hb, hplace⟩ := exists_place_of_mem_payloadSites (List.mem_of_getElem? hs)
    obtain ⟨_, hb, hplace⟩ := hq.exists_place hb hplace
    exact exists_trapPayload (by omega) hb hplace
  · exact fun x q q' hq' => (trapPayload_edit hq').1.mono id fun _ _ => trivial

theorem trapTime_eq_error (hsize : p.timedSites.length < 2 ^ 32)
    (h : p.trapTime counters = .error failure) :
    p.global? counters ≠ none ∧ failure = .error [] (.counterExists counters) := by
  rw [trapTime, narrow_eq_ok hsize, Outcome.ok_bind] at h
  refine declare_bind_eq_error (fun r hr => exists_traps ?_ ?_ hr) h
  · intro i s hs q hq
    have hi := (List.getElem?_eq_some_iff.mp hs).1
    obtain ⟨_, hb, hplace⟩ := exists_place_of_mem_timedSites (List.mem_of_getElem? hs)
    obtain ⟨_, hb, hplace⟩ := hq.exists_place hb hplace
    exact exists_trapTimed (hi.trans hsize) hb hplace
  · exact fun x q q' hq' => (trapTimed_edit hq').mono id fun _ _ => trivial

theorem trapRank_eq_error (h : p.trapRank counters = .error failure) :
    p.global? counters ≠ none ∧ failure = .error [] (.counterExists counters) := by
  refine declare_bind_eq_error (fun r hr => ?_) h
  cases hsite : p.rankQuery? with
  | none => exact ⟨r, rfl⟩
  | some site =>
      dsimp only
      cases site.args[1]? with
      | none => exact ⟨r, rfl⟩
      | some rank =>
          obtain ⟨block, hb, hplace⟩ :=
            exists_place_of_mem_callSites (List.mem_of_find?_eq_some hsite)
          have hb : r.block? site.function site.block = some block := by
            rw [← hb, block?, block?, hr]
          exact ⟨_, update_insertAt_eq_ok hb hplace _⟩

theorem countEdges_eq_error {blocks : List ℕ} (hvalid : p.IsValid)
    (hsize : (Pass.edges counters).size blocks p < 2 ^ 32)
    (h : p.countEdges blocks counters = .error failure) :
    p.global? counters ≠ none ∧ failure = .error [] (.counterExists counters) := by
  have hfunctions : ∀ x ∈ p.functions.zip blocks, x.1.IsValid :=
    fun x hx => hvalid x.1 (List.of_mem_zip hx).1
  obtain ⟨counted, hcounted⟩ := exists_countFunctions counters hfunctions 0
  rw [Nat.zero_add] at hcounted
  rw [countEdges, Outcome.bind_eq_error_iff] at h
  rcases h with h | ⟨len, hlen, h⟩
  · exact absurd h (Outcome.ok_ne_error ⟨_, narrow_eq_ok hsize _⟩)
  · refine declare_bind_eq_error (fun r hr => ?_) h
    rw [hcounted, Outcome.ok_bind]
    exact ⟨{ r with functions := counted },
      Outcome.bind_eq_ok_iff.mpr ⟨(), Outcome.require_of rfl, rfl⟩⟩

/-! ### Weights -/

theorem function?_eq_bind (p : Program) (name : String) :
    p.function? name = (p.functionIndex? name).bind (p.functions[·]?) := by
  unfold function? functionIndex?
  cases hi : p.functions.findIdx? (·.name == name) with
  | none => simpa [List.findIdx?_eq_none_iff] using hi
  | some i =>
      obtain ⟨hlt, hname, hbefore⟩ := List.findIdx?_eq_some_iff_getElem.mp hi
      rw [Option.bind_some, List.getElem?_eq_getElem hlt, List.find?_eq_some_iff_getElem]
      exact ⟨hname, i, hlt, rfl, fun j hj => by simpa using hbefore j hj⟩

/-- The function that a weight names, and its number of blocks. -/
theorem exists_function_of_functionIndex? {name : String} {i : ℕ}
    (hi : p.functionIndex? name = some i) :
    ∃ f, p.function? name = some f ∧ p.functions[i]? = some f ∧
      (p.blockCounts[i]?).getD 0 = f.blocks.length := by
  obtain ⟨hlt, -⟩ := List.findIdx?_eq_some_iff_getElem.mp hi
  have hf := List.getElem?_eq_getElem hlt
  exact ⟨_, by rw [function?_eq_bind, hi, Option.bind_some, hf], hf, by simp [blockCounts, hf]⟩

theorem locateWeight_eq_error (hedit : p.Edited splitting added r)
    (hsize : p.blockCounts.sum < 2 ^ 32) {w : BlockWeight}
    (h : r.locateWeight p.blockCounts w = .error failure) :
    ∃ cause, failure = .error [] cause ∧ p.Misplaces w cause := by
  simp only [locateWeight, hedit.functionIndex?_eq, Outcome.bind_eq_error_iff,
    Outcome.ofOption_eq_error_iff, Outcome.ofOption_eq_ok_iff, Outcome.require_eq_error_iff,
    Outcome.require_eq_ok_iff] at h
  rcases h with ⟨hi, rfl⟩ | ⟨i, hi, ⟨hlt, rfl⟩ | ⟨_, hlt, hslot⟩⟩
  · exact ⟨_, rfl, .unknownFunction (by rw [function?_eq_bind, hi]; rfl)⟩
  · obtain ⟨f, hf, -, hcount⟩ := exists_function_of_functionIndex? hi
    rw [hcount] at hlt ⊢
    exact ⟨_, rfl, .outOfRange hf (Nat.le_of_not_lt hlt)⟩
  · have hfits := (sum_take_add_lt hlt).trans hsize
    rcases hslot with hslot | ⟨_, -, hslot⟩
    · exact absurd hslot (Outcome.ok_ne_error ⟨_, narrow_eq_ok hfits _⟩)
    · cases hslot

/-- A weight that is located has a block. -/
theorem place_of_locateWeight (hedit : p.Edited splitting added r) {w : BlockWeight}
    {u : WeightUpdate} (h : r.locateWeight p.blockCounts w = .ok u) :
    ∃ f, p.functions[u.function]? = some f ∧ u.block < f.blocks.length := by
  obtain ⟨i, hi, hlt, -, rfl⟩ := locateWeight_eq_ok_iff.mp h
  rw [hedit.functionIndex?_eq] at hi
  obtain ⟨f, -, hf, hcount⟩ := exists_function_of_functionIndex? hi
  exact ⟨f, hf, hcount ▸ hlt⟩

theorem not_misplaces (hedit : p.Edited splitting added r) {w : BlockWeight} {u : WeightUpdate}
    (h : r.locateWeight p.blockCounts w = .ok u) (cause : Cause) : ¬p.Misplaces w cause := by
  obtain ⟨i, hi, hlt, -⟩ := locateWeight_eq_ok_iff.mp h
  rw [hedit.functionIndex?_eq] at hi
  obtain ⟨f, hf, -, hcount⟩ := exists_function_of_functionIndex? hi
  rw [hcount] at hlt
  rintro (hnone | ⟨hf', hle⟩)
  · rw [hf] at hnone
    cases hnone
  · obtain rfl := Option.some.inj (hf.symm.trans hf')
    exact Nat.not_lt.mpr hle hlt

theorem weighBlocks_eq_error (hedit : p.Edited splitting added r)
    (hsize : p.blockCounts.sum < 2 ^ 32) {weights : List BlockWeight}
    (h : r.weighBlocks p.blockCounts weights counters = .error failure) :
    (r.global? counters ≠ none ∧ failure = .error [] (.counterExists counters)) ∨
      ∃ w ∈ weights, ∃ cause, failure = .error [] cause ∧ p.Misplaces w cause := by
  rw [weighBlocks, Outcome.bind_eq_error_iff] at h
  rcases h with h | ⟨updates, hupdates, h⟩
  · obtain ⟨w, hw, h⟩ := Outcome.mapM_eq_error h
    exact .inr ⟨w, hw, locateWeight_eq_error hedit hsize h⟩
  · rw [narrow_eq_ok hsize, Outcome.ok_bind] at h
    refine .inl (declare_bind_eq_error (fun r' hr' => ?_) h)
    have hweigh : ∀ u ∈ updates, ∀ q, p.Edited True (fun _ => True) q →
        ∃ q', weigh counters q u = .ok q' ∧ p.Edited True (fun _ => True) q' := by
      intro u hu q hq
      obtain ⟨w, -, hw⟩ := Outcome.exists_of_mem_mapM hupdates hu
      obtain ⟨f, hf, hblock⟩ := place_of_locateWeight hedit hw
      obtain ⟨g, hg, hfg⟩ := hq.exists_right hf
      have hb := List.getElem?_eq_getElem (hblock.trans_le hfg.length_le)
      obtain ⟨q', hq'⟩ := exists_update
        (fun f => f.insertAtEnd u.block (.addWeight counters u.slot u.value)) hg
        ⟨_, Function.insertAtEnd_eq_ok_iff.mpr ⟨_, hb, rfl⟩⟩
      exact ⟨q', hq', hq.trans (update_edited hq' fun _ _ => .insertAtEnd trivial).2⟩
    obtain ⟨q, hq, -⟩ := Outcome.exists_foldlM _ hweigh
      ((hedit.mono (fun _ => trivial) fun _ _ => trivial).trans (.of_functions_eq hr'))
    exact ⟨q, hq⟩

end Program

/-- Whatever was done to the program, its own edges need as many slots. -/
theorem Program.Edited.size_edges {splitting : Prop} {added : Inst → Prop} {p q : Program}
    (h : p.Edited splitting added q) (counters : String) :
    (Pass.edges counters).size p.blockCounts q = p.edgeSlots := by
  have hmap : ((q.functions.zip p.blockCounts).map fun x => x.1.countedSlots x.2) =
      p.functions.map Function.slots := by
    apply List.ext_getElem
    · simp [blockCounts, h.length_eq]
    · intro i hi hi'
      rw [List.length_map] at hi'
      have hq : i < q.functions.length := h.length_eq ▸ hi'
      simpa [blockCounts] using
        (h.get? (List.getElem?_eq_getElem hi') (List.getElem?_eq_getElem hq)).countedSlots_eq
  rw [Pass.size, hmap, sum_map_definedFunctions]

end FlowProfile
