import FlowProfile.Profile.Binding
import FlowProfile.Proofs.Instrument.Originals

/-!
# The edge counters of an instrumented program

Whatever other strategies are used before and after it, a strategy that counts edges leaves
every edge of the plain program with a slot at its place in program order, and is
registered once.
-/

namespace FlowProfile

/-- The strategies that count edges. -/
def Strategy.countsEdges (s : Strategy) : Prop := s = .edge ∨ s = .edgeRank

instance (s : Strategy) : Decidable s.countsEdges := inferInstanceAs (Decidable (_ ∨ _))

/-- Is it the call that registers the strategy? -/
def Inst.registers (s : Strategy) (inst : Inst) : Bool := inst.callee? = some s.entryPoint

/-- The first slot of a function: the slots of all functions before it come first. -/
def Program.entrySlot (p : Program) (i : ℕ) : ℕ := ((p.functions.map Function.slots).take i).sum

/-- In `q` every edge of `p` has its slot, and the strategy is registered at the entry of `main`. -/
structure Program.Profiled (p : Program) (s : Strategy) (main : ℕ) (counters : String)
    (q : Program) : Prop where
  slots : ∀ (i : ℕ) (f g : Function), p.functions[i]? = some f → q.functions[i]? = some g →
    f.isDeclaration = false →
    g.SlotsCounted counters (f.edges f.blocks.length) (p.entrySlot i)
  registered : ∀ (i : ℕ) (g : Function), q.functions[i]? = some g → ∀ x,
    g.tally (Inst.registers s) x = if i = main ∧ x = 0 then 1 else 0
  declared : q.Declares ((Pass.edges counters).global p.edgeSlots)

/-! ### Slots -/

namespace Function

theorem length_edges_take (f : Function) (limit : ℕ) :
    (f.edges limit).length =
      ((f.blocks.take limit).map (·.terminator.successors.length)).sum := by
  unfold edges
  rw [List.length_flatMap]
  simp only [List.length_map, List.length_range]
  exact sum_map_zipIdx (f.blocks.take limit) fun b => b.terminator.successors.length

theorem length_edges (f : Function) : (f.edges f.blocks.length).length = f.edgeCounts.sum := by
  rw [length_edges_take, List.take_length, edgeCounts]

theorem countedSlots_eq_slots (f : Function) : f.countedSlots f.blocks.length = f.slots := by
  unfold countedSlots slots edgeSlots
  rw [length_edges, edgeCounts]

theorem slots_eq {f : Function} (h : f.isDeclaration = false) :
    f.slots = 1 + (f.edges f.blocks.length).length := by
  rw [← countedSlots_eq_slots, countedSlots, h]
  rfl

/-- The edges of a function are those of its terminators. -/
theorem edges_congr {f g : Function} (h : g.terminators = f.terminators) (limit : ℕ) :
    g.edges limit = f.edges limit := by
  have hedges : ∀ f : Function, f.edges limit = (f.terminators.take limit).zipIdx.flatMap
      fun (t, b) => (List.range t.successors.length).map (b, ·) := by
    intro f
    unfold edges terminators
    rw [← List.map_take, List.zipIdx_map, List.flatMap_map]
    rfl
  rw [hedges, hedges, h]

theorem length_blocks_congr {f g : Function} (h : g.terminators = f.terminators) :
    g.blocks.length = f.blocks.length := by
  simpa [terminators] using congrArg List.length h

theorem successors_congr {f g : Function} (h : g.terminators = f.terminators) (x : BlockId) :
    g.successors x = f.successors x := by
  have hsucc : ∀ f : Function,
      f.successors x = ((f.terminators[x]?).map Terminator.successors).getD [] := by
    intro f
    unfold successors terminators
    rw [List.getElem?_map]
    cases f.blocks[x]? <;> rfl
  rw [hsucc, hsucc, h]

theorem slots_congr {f g : Function} (h : g.terminators = f.terminators) : g.slots = f.slots := by
  rw [← countedSlots_eq_slots, ← countedSlots_eq_slots, countedSlots, countedSlots,
    length_blocks_congr h, edges_congr h]
  have hdecl : g.isDeclaration = f.isDeclaration := by
    have hlen := length_blocks_congr h
    rw [isDeclaration, isDeclaration, Bool.eq_iff_iff, List.isEmpty_iff, List.isEmpty_iff,
      ← List.length_eq_zero_iff, ← List.length_eq_zero_iff, hlen]
  rw [hdecl]

/-- Insertions of other instructions keep every slot. -/
theorem SlotsCounted.edited {f g : Function} {added : Inst → Prop} {counters : String}
    {edges : List (BlockId × ℕ)} {slot : ℕ} (h : f.SlotsCounted counters edges slot)
    (hedit : f.Edited False added g)
    (hadd : ∀ inst, added inst → ∀ k, inst.bumps counters k = false) :
    g.SlotsCounted counters edges slot := by
  have htally : ∀ k x, g.tally (Inst.bumps counters k) x = f.tally (Inst.bumps counters k) x :=
    fun k x => hedit.tally_eq (fun inst ha => hadd inst ha k) x
  have hterm := hedit.terminators_eq
  refine ⟨?_, ?_, ?_⟩
  · intro x
    rw [htally, h.entry]
  · intro i e hi
    obtain ⟨w, hw⟩ := h.counted i e hi
    exact ⟨w, hw.of_terminators (successors_congr hterm) (predecessorCount_congr hterm)
      (htally _)⟩
  · intro k hk x
    rw [htally, h.others k hk]

end Function

theorem sum_map_definedFunctions (p : Program) :
    p.edgeSlots = (p.functions.map Function.slots).sum := by
  unfold Program.edgeSlots Program.definedFunctions
  rw [← sum_map_zipIdx p.functions Function.slots]
  induction p.functions.zipIdx with
  | nil => rfl
  | cons x xs ih =>
      by_cases hdecl : x.1.isDeclaration
      · simp [hdecl, Function.slots, ih]
      · simp [hdecl, Function.slots, ih]

/-- Before any edge is split, the slots that the pass numbers are those of the program. -/
theorem slotsBefore_blockCounts {p q : Program} {added : Inst → Prop}
    (h : p.Edited False added q) (i : ℕ) (counters : String) :
    slotsBefore (q.functions.zip p.blockCounts) i = p.entrySlot i ∧
      (Pass.edges counters).size p.blockCounts q = p.edgeSlots := by
  have hmap : ((q.functions.zip p.blockCounts).map fun x => x.1.countedSlots x.2) =
      p.functions.map Function.slots := by
    apply List.ext_getElem
    · simp [Program.blockCounts, h.length_eq]
    · intro j hj hj'
      rw [List.length_map] at hj'
      have hq : j < q.functions.length := by
        rw [h.length_eq]
        exact hj'
      have hterm :=
        (h.get? (List.getElem?_eq_getElem hj') (List.getElem?_eq_getElem hq)).terminators_eq
      simp only [List.getElem_map, List.getElem_zip, Program.blockCounts]
      rw [← Function.length_blocks_congr hterm, Function.countedSlots_eq_slots,
        Function.slots_congr hterm]
  constructor
  · rw [slotsBefore, Program.entrySlot, ← hmap, List.map_take]
  · rw [Pass.size, hmap, sum_map_definedFunctions]

theorem size_edges (p : Program) (counters : String) :
    (Pass.edges counters).size p.blockCounts p = p.edgeSlots := by
  have hrefl : p.Edited False (fun _ => False) p := .refl p
  exact (slotsBefore_blockCounts hrefl 0 counters).2

/-! ### Other strategies -/

theorem Strategy.entryPoint_injective {s t : Strategy} (h : s.entryPoint = t.entryPoint) :
    s = t := by
  have hs := ofEntryPoint?_entryPoint s
  rw [h, ofEntryPoint?_entryPoint] at hs
  exact (Option.some.inj hs).symm

theorem Strategy.countsEdges_of_splits {s : Strategy} {pass : Pass} (hp : pass ∈ s.passes)
    (hsplits : pass.Splits) : s.countsEdges := by
  cases s <;> simp only [passes, List.mem_cons, List.not_mem_nil, or_false] at hp
  case edge => exact .inl rfl
  case edgeRank => exact .inr rfl
  case time =>
    rcases hp with rfl | rfl <;> exact hsplits.elim
  all_goals subst hp; exact hsplits.elim

/-- The instruction neither counts an edge nor registers the strategy. -/
def Inst.Neutral (s : Strategy) (inst : Inst) : Prop :=
  (∀ counters k, inst.bumps counters k = false) ∧ inst.registers s = false

theorem Pass.Adds.neutral {values : Operand → Prop} {len : ℕ} {pass : Pass} {inst : Inst}
    (h : pass.Adds values len inst) (hsplits : ¬pass.Splits) (s : Strategy) : inst.Neutral s := by
  cases h with
  | increment => exact absurd trivial hsplits
  | _ => exact ⟨fun _ _ => rfl, rfl⟩

/-- Other strategies do not register `s`. -/
theorem Inst.Added.registers_eq_false {values : Operand → Prop} {used : Strategy → Prop}
    {p : Program} {inst : Inst} {s : Strategy} (h : Inst.Added values used p inst)
    (hused : ∀ t, used t → t ≠ s) : inst.registers s = false := by
  cases h with
  | pass ht hp hg ha => cases ha <;> rfl
  | @registration t ht hg =>
      have hne : t.entryPoint ≠ s.entryPoint :=
        fun heq => hused t ht (Strategy.entryPoint_injective heq)
      simpa [Inst.registers, Strategy.registration, Inst.callee?] using hne

/-- Strategies that do not count edges add nothing that concerns `s`. -/
theorem Inst.Added.neutral {values : Operand → Prop} {used : Strategy → Prop} {p : Program}
    {inst : Inst} {s : Strategy} (h : Inst.Added values used p inst)
    (hused : ∀ t, used t → ¬t.countsEdges ∧ t ≠ s) : inst.Neutral s := by
  refine ⟨?_, h.registers_eq_false fun t ht => (hused t ht).2⟩
  cases h with
  | pass ht hp hg ha =>
      exact (ha.neutral
        (fun hsplits => (hused _ ht).1 (Strategy.countsEdges_of_splits hp hsplits)) s).1
  | registration => exact fun _ _ => rfl

theorem Inst.neutral_of_isOriginal {inst : Inst} (h : inst.isOriginal = true) (s : Strategy) :
    inst.Neutral s := by
  refine ⟨fun counters k => ?_, ?_⟩
  · simp only [Inst.bumps, decide_eq_false_iff_not]
    rintro rfl
    cases h
  · obtain ⟨-, hcallee⟩ := Bool.and_eq_true_iff.mp h
    rw [Inst.registers, decide_eq_false_iff_not]
    intro heq
    simp [heq, Strategy.ofEntryPoint?_entryPoint] at hcallee

/-! ### Before, during and after the strategy -/

namespace Program

variable {values : Operand → Prop} {used : Strategy → Prop} {p q r : Program} {s : Strategy}
  {main : ℕ} {counters : String}

/-- Growth by strategies that do not count edges inserts neutral instructions alone. -/
theorem Grows.edited_neutral (h : p.Grows values used q)
    (hused : ∀ t, used t → ¬t.countsEdges ∧ t ≠ s) : p.Edited False (Inst.Neutral s) q := by
  refine h.edited.mono ?_ fun inst ha => ha.neutral hused
  rintro ⟨t, ht, pass, hp, hsplits⟩
  exact (hused t ht).1 (Strategy.countsEdges_of_splits hp hsplits)

theorem Profiled.edited (h : p.Profiled s main counters q)
    (hedit : q.Edited False (Inst.Neutral s) r) (hdecl : ∀ g, q.Declares g → r.Declares g) :
    p.Profiled s main counters r where
  slots i f g hf hg hdef := by
    obtain ⟨mid, hmid, hfg⟩ := hedit.exists_left hg
    exact (h.slots i f mid hf hmid hdef).edited hfg fun inst hn k => hn.1 counters k
  registered i g hg x := by
    obtain ⟨mid, hmid, hfg⟩ := hedit.exists_left hg
    rw [hfg.tally_eq (fun inst hn => hn.2), h.registered i mid hmid]
  declared := hdecl _ h.declared

/-- The pass that counts edges, on a program that is plain but for other strategies. -/
theorem slots_of_countEdges (hvalid : p.IsValid) (hp : p.IsOriginal)
    (hedit : p.Edited False (Inst.Neutral s) q)
    (h : q.countEdges p.blockCounts counters = .ok r) :
    (∀ (i : ℕ) (f g : Function), p.functions[i]? = some f → r.functions[i]? = some g →
      f.isDeclaration = false →
      g.SlotsCounted counters (f.edges f.blocks.length) (p.entrySlot i)) ∧
    (∀ (i : ℕ) (g : Function), r.functions[i]? = some g → ∀ x,
      g.tally (Inst.registers s) x = 0) ∧
    r.Declares ((Pass.edges counters).global p.edgeSlots) := by
  have hlen : p.blockCounts.length = q.functions.length := by
    rw [hedit.length_eq, blockCounts, List.length_map]
  obtain ⟨hnone, hglobals, -, hspec⟩ := countEdges_eq_ok hlen h
  have hsize := (slotsBefore_blockCounts hedit 0 counters).2
  refine ⟨?_, ?_, ?_⟩
  · intro i f g hf hg hdef
    obtain ⟨mid, hmid, hfm⟩ := hedit.exists_right hf
    obtain ⟨limit, g', hlimit, hg', hcase⟩ := hspec i mid hmid
    obtain rfl : g = g' := Option.some.inj (hg.symm.trans hg')
    obtain rfl : f.blocks.length = limit := by simpa [blockCounts, hf] using hlimit
    rw [hfm.isDeclaration_eq, hdef, if_neg (by simp), (slotsBefore_blockCounts hedit i counters).1]
      at hcase
    rw [← Function.edges_congr hfm.terminators_eq]
    refine Function.countEdges_spec (hfm.isValid (hvalid f (List.mem_of_getElem? hf))) ?_ hcase
    intro k x
    rw [hfm.tally_eq (fun inst hn => hn.1 counters k)]
    refine tally_eq_zero hf (fun inst hi => ?_) x
    exact (Inst.neutral_of_isOriginal (hp.hasInst hi) s).1 counters k
  · intro i g hg x
    obtain ⟨f, hf, hfg⟩ := (countEdges_spec (fun _ => True) hlen h).2.2.exists_left hg
    obtain ⟨own, hown, hof⟩ := hedit.exists_left hf
    rw [hfg.tally_eq, hof.tally_eq (fun inst hn => hn.2)]
    · exact tally_eq_zero hown (fun inst hi => (Inst.neutral_of_isOriginal (hp.hasInst hi) s).2) x
    · rintro inst ha
      cases ha
      rfl
  · rw [← hsize]
    exact declares_of_append hnone hglobals

end Program

theorem Strategy.passes_of_countsEdges {s : Strategy} (h : s.countsEdges) :
    ∃ counters rest, s.passes = .edges counters :: rest ∧
      ∀ pass ∈ rest, ∃ ranks, pass = .rank ranks := by
  rcases h with rfl | rfl
  · exact ⟨_, [], rfl, by simp⟩
  · exact ⟨_, _, rfl, by simp⟩

namespace Instrumenter

variable {ins : Instrumenter} {values : Operand → Prop} {p q r : Program} {s : Strategy}
  {main : ℕ} {counters : String}

variable (s) in
theorem ranks_edited {blocks : List ℕ} {passes : List Pass} (hp : p.Copies values)
    (hranks : ∀ pass ∈ passes, ∃ ranks, pass = .rank ranks)
    (h : passes.foldlM (ins.pass blocks) p = .ok q) :
    p.Edited False (Inst.Neutral s) q ∧ ∀ g, p.Declares g → q.Declares g := by
  induction passes generalizing p with
  | nil =>
      obtain rfl : p = q := by simpa using h
      exact ⟨.refl p, fun _ hg => hg⟩
  | cons pass passes ih =>
      rw [List.foldlM_cons, Outcome.bind_eq_ok_iff] at h
      obtain ⟨mid, hmid, h⟩ := h
      obtain ⟨ranks, rfl⟩ := hranks pass List.mem_cons_self
      obtain ⟨hnone, hglobals, hedited⟩ := Program.trapRank_spec hp hmid
      have hcopies : mid.Copies values := by
        intro name args hinst
        rcases hedited.hasInst hinst with ha | hinst
        · cases ha
        · exact hp name args hinst
      obtain ⟨hrest, hdecl⟩ :=
        ih hcopies (fun pass' hmem => hranks pass' (List.mem_cons_of_mem _ hmem)) h
      refine ⟨?_, fun g hg => hdecl g (hg.append hnone hglobals)⟩
      exact (hedited.mono id fun inst ha => ha.neutral not_false s).trans hrest

/-- A registration at the start of the entry function is the only one of its strategy. -/
theorem tally_register (hzero : ∀ (i : ℕ) (g : Function), p.functions[i]? = some g → ∀ x,
      g.tally (Inst.registers s) x = 0)
    (h : (p.update main fun f => f.insertAtStart 0 s.registration) = .ok q)
    (i : ℕ) (g : Function) (hg : q.functions[i]? = some g) (x : BlockId) :
    g.tally (Inst.registers s) x = if i = main ∧ x = 0 then 1 else 0 := by
  obtain ⟨f, f', hf, hins, rfl⟩ := Program.update_eq_ok_iff.mp h
  obtain ⟨block, hb, hi, rfl⟩ := Function.insertAt_eq_ok_iff.mp hins
  have hself : s.registration.registers s = true := by
    simp [Inst.registers, Strategy.registration, Inst.callee?]
  simp only [List.getElem?_set] at hg
  by_cases hmain : main = i
  · subst hmain
    have hlt := (List.getElem?_eq_some_iff.mp hf).1
    obtain rfl : f.insert 0 0 s.registration = g := by simpa [hlt] using hg
    rw [Function.tally_insert hb hi, hzero main f hf, hself]
    simp
  · rw [if_neg hmain] at hg
    rw [hzero i g hg, if_neg]
    rintro ⟨rfl, -⟩
    exact hmain rfl

/-- A strategy that counts edges, after others that do not. -/
theorem apply_profiled (hvalid : p.IsValid) (hp : p.IsOriginal) (hcopies : q.Copies values)
    (hedit : p.Edited False (Inst.Neutral s) q) {rest : List Pass}
    (hpasses : s.passes = .edges counters :: rest)
    (hrest : ∀ pass ∈ rest, ∃ ranks, pass = .rank ranks)
    (h : ins.apply p.blockCounts main q s = .ok r) : p.Profiled s main counters r := by
  simp only [apply, hpasses, List.foldlM_cons, Outcome.bind_eq_ok_iff] at h
  obtain ⟨ranked, ⟨counted, hcount, hranks⟩, hregister⟩ := h
  obtain ⟨hslots, hzero, hdecl⟩ := Program.slots_of_countEdges hvalid hp hedit hcount
  have hlen : p.blockCounts.length = q.functions.length := by
    rw [hedit.length_eq, Program.blockCounts, List.length_map]
  have hcountedCopies : counted.Copies values := by
    intro name args hinst
    rcases (Program.countEdges_spec values hlen hcount).2.2.hasInst hinst with ha | hinst
    · cases ha
    · exact hcopies name args hinst
  obtain ⟨hrankedEdit, hrankedDecl⟩ := ranks_edited s hcountedCopies hrest hranks
  obtain ⟨hglobals, hregisterEdit⟩ := Program.update_insertAtStart_edited hregister
  refine ⟨?_, ?_, ?_⟩
  · intro i f g hf hg hdef
    obtain ⟨g', hg', hedit'⟩ := hregisterEdit.exists_left hg
    obtain ⟨g'', hg'', hedit''⟩ := hrankedEdit.exists_left hg'
    refine ((hslots i f g'' hf hg'' hdef).edited hedit'' fun inst hn k => hn.1 counters k).edited
      hedit' ?_
    rintro inst rfl k
    rfl
  · refine tally_register ?_ hregister
    intro i g hg x
    obtain ⟨g', hg', hedit'⟩ := hrankedEdit.exists_left hg
    rw [hedit'.tally_eq (fun inst hn => hn.2), hzero i g' hg']
  · unfold Program.Declares
    rw [hglobals]
    exact hrankedDecl _ hdecl

/-- Among the strategies of an instrumented program one that counts edges stands alone. -/
theorem applyAll_profiled (hvalid : p.IsValid) (hp : p.IsOriginal) (hs : s ∈ ins.strategies)
    (hcounts : s.countsEdges)
    (hone : ¬(Strategy.edge ∈ ins.strategies ∧ Strategy.edgeRank ∈ ins.strategies))
    {rest : List Pass} (hpasses : s.passes = .edges counters :: rest)
    (hrest : ∀ pass ∈ rest, ∃ ranks, pass = .rank ranks)
    (h : ins.applyAll p.blockCounts main p = .ok q) : p.Profiled s main counters q := by
  have hlen : p.blockCounts.length = p.functions.length := by
    rw [Program.blockCounts, List.length_map]
  obtain ⟨first, second, hfirst, hsecond, hrest'⟩ :=
    applyAll_split hlen p.copies_true (fun _ _ => trivial) hs h
  have hother : ∀ t, t ∈ ins.strategies ∧ t ≠ s → ¬t.countsEdges ∧ t ≠ s := by
    rintro t ⟨hmem, hne⟩
    refine ⟨?_, hne⟩
    rintro (rfl | rfl) <;> rcases hcounts with rfl | rfl
    · exact hne rfl
    · exact hone ⟨hmem, hs⟩
    · exact hone ⟨hs, hmem⟩
    · exact hne rfl
  have hprofiled := apply_profiled hvalid hp (hfirst.copies p.copies_true)
    (hfirst.edited_neutral hother) hpasses hrest hsecond
  exact hprofiled.edited (hrest'.edited_neutral hother) hrest'.declares

theorem instrument_eq_ok {main : ℕ} (hmain : p.functionIndex? ins.entry = some main)
    (h : ins.instrument p = .ok q) :
    p.IsValid ∧ (∃ f, p.functions[main]? = some f ∧ f.isDeclaration = false) ∧
      ¬(Strategy.edge ∈ ins.strategies ∧ Strategy.edgeRank ∈ ins.strategies) ∧
      ins.applyAll p.blockCounts main p = .ok q := by
  simp only [instrument, hmain, Program.function, Outcome.bind_eq_ok_iff, Outcome.get_eq_ok_iff,
    Outcome.require_eq_ok_iff] at h
  obtain ⟨_, hvalid, f, hf, _, hdef, _, hone, h⟩ := h
  exact ⟨(Program.validate_eq_ok_iff p).mp hvalid, ⟨f, hf, by simpa using hdef⟩, hone, h⟩

end Instrumenter

end FlowProfile
