import FlowProfile.Proofs.Exec.Counting
import FlowProfile.Proofs.Exec.Declared
import FlowProfile.Proofs.Graph.Refinement
import FlowProfile.Proofs.Instrument.EdgeSlots

/-!
# What edge counters hold at the end of a run

Each slot of an instrumented program holds how often the run took the edge that it counts.
-/

namespace FlowProfile

/-! ### Slots of different functions -/

theorem Program.entrySlot_add_le {p : Program} {i j : ℕ} {f : Function}
    (hf : p.functions[i]? = some f) (hij : i < j) : p.entrySlot i + f.slots ≤ p.entrySlot j :=
  sum_take_add_le_take (by simp [hf]) hij

namespace Program.Profiled

variable {splitting : Prop} {added : Inst → Prop} {p q : Program} {s : Strategy} {main : ℕ}
  {counters : String}

/-- A slot of one function is raised in no other. -/
theorem tally_elsewhere (h : p.Profiled s main counters q) (hedit : p.Edited splitting added q)
    {i j k : ℕ} {f g : Function} (hf : p.functions[i]? = some f) (hlow : p.entrySlot i ≤ k)
    (hhigh : k < p.entrySlot i + f.slots) (hij : j ≠ i) (hg : q.functions[j]? = some g)
    (x : BlockId) : g.tally (Inst.bumps counters k) x = 0 := by
  obtain ⟨f', hf', hfg⟩ := hedit.exists_left hg
  cases hdecl : f'.isDeclaration with
  | true =>
      have hnil : g.blocks = [] := by
        rw [← List.isEmpty_iff]
        exact hfg.isDeclaration_eq.trans hdecl
      simp [Function.tally, hnil]
  | false =>
      apply (h.slots j f' g hf' hg hdecl).others
      have hslots := Function.slots_eq hdecl
      rcases Nat.lt_or_gt_of_ne hij with hlt | hgt
      · have hle := Program.entrySlot_add_le hf' hlt
        omega
      · have hle := Program.entrySlot_add_le hf hgt
        omega

/-- A slot that is raised in one block of its function is raised there alone. -/
theorem countP_eq (h : p.Profiled s main counters q) (hedit : p.Edited splitting added q)
    {i k : ℕ} {f g : Function} {w : BlockId} (hf : p.functions[i]? = some f)
    (hg : q.functions[i]? = some g) (hlow : p.entrySlot i ≤ k)
    (hhigh : k < p.entrySlot i + f.slots)
    (honce : ∀ x, g.tally (Inst.bumps counters k) x = if x = w then 1 else 0)
    (function : ℕ) (b : BlockId) (block : Block) (hb : q.block? function b = some block) :
    block.insts.countP (Inst.bumps counters k) = if function = i ∧ b = w then 1 else 0 := by
  obtain ⟨g', hg', hblock⟩ := Program.block?_eq_some_iff.mp hb
  have htally : g'.tally (Inst.bumps counters k) b =
      block.insts.countP (Inst.bumps counters k) := by
    simp [Function.tally, hblock]
  rw [← htally]
  by_cases hi : function = i
  · subst hi
    obtain rfl : g = g' := Option.some.inj (hg.symm.trans hg')
    simp [honce]
  · rw [h.tally_elsewhere hedit hf hlow hhigh hi hg', if_neg (fun hand => hi hand.1)]

end Program.Profiled

/-! ### One edge into a block -/

/-- Two edges into a block with one predecessor are the same. -/
theorem Function.eq_of_predecessorCount {g : Function} {w : BlockId}
    (hpred : g.predecessorCount w = 1) {b b' : BlockId} {block block' : Block} {succ succ' : ℕ}
    (hb : g.blocks[b]? = some block) (hs : block.terminator.successors[succ]? = some w)
    (hb' : g.blocks[b']? = some block') (hs' : block'.terminator.successors[succ']? = some w) :
    (b', succ') = (b, succ) := by
  have hcount : ∀ {c : BlockId} {k : Block}, g.blocks[c]? = some k →
      (g.blocks.map fun block => block.terminator.successors.count w)[c]? =
        some (k.terminator.successors.count w) := by
    intro c k hc
    simp [hc]
  have hpos : 0 < block.terminator.successors.count w :=
    List.count_pos_iff.mpr (List.mem_of_getElem? hs)
  have hpos' : 0 < block'.terminator.successors.count w :=
    List.count_pos_iff.mpr (List.mem_of_getElem? hs')
  unfold predecessorCount at hpred
  by_cases hbb : b = b'
  · subst hbb
    obtain rfl : block = block' := Option.some.inj (hb.symm.trans hb')
    by_contra hne
    have hsucc : succ ≠ succ' := fun heq => hne (by rw [heq])
    obtain ⟨hlt, hget⟩ := List.getElem?_eq_some_iff.mp hs
    obtain ⟨hlt', hget'⟩ := List.getElem?_eq_some_iff.mp hs'
    have hdup : block.terminator.successors.Duplicate w := by
      rw [List.duplicate_iff_exists_distinct_get]
      rcases Nat.lt_or_gt_of_ne hsucc with h | h
      · exact ⟨⟨succ, hlt⟩, ⟨succ', hlt'⟩, h, hget.symm, hget'.symm⟩
      · exact ⟨⟨succ', hlt'⟩, ⟨succ, hlt⟩, h, hget'.symm, hget.symm⟩
    have htwo := List.duplicate_iff_two_le_count.mp hdup
    have hle := sum_take_add_le (hcount hb)
    omega
  · have hle := two_le_sum (hcount hb) (hcount hb') hbb
    omega

/-! ### Counts of a run -/

namespace Program

variable {σ : Type} {splitting : Prop} {added : Inst → Prop} {p q : Program} {host : Host σ}
  {state : σ} {limit : ℕ} {args : List String} {m : Machine σ} {records : List Record}
  {s : Strategy} {main : ℕ} {counters : String}

/-- No payload is added to the array. -/
def CountsAlone (counters : String) (q : Program) : Prop :=
  ∀ slot count datatype, ¬q.HasInst (.accumulate counters slot count datatype)

theorem measures_count (halone : q.CountsAlone counters) (k : ℕ) :
    Measures q host (Inst.bumps counters k) fun m => m.counters.count counters k := by
  intro inst hinst m depth m' hm
  have hother : ∀ slot count datatype, inst ≠ .accumulate counters slot count datatype := by
    rintro slot count datatype rfl
    exact halone slot count datatype hinst
  have hcount := (Machine.executes_of_next? hm).count k hother
  simpa [Inst.bumps] using hcount

/-- A slot that is raised in one block holds the number of its runs. -/
theorem count_eq_executions (h : p.Profiled s main counters q)
    (hedit : p.Edited splitting added q) (halone : q.CountsAlone counters)
    (hrun : q.run host state limit args = (m, .ok records)) {i k : ℕ} {f g : Function} {w : BlockId}
    {block : Block} (hf : p.functions[i]? = some f) (hg : q.functions[i]? = some g)
    (hlow : p.entrySlot i ≤ k) (hhigh : k < p.entrySlot i + f.slots)
    (honce : ∀ x, g.tally (Inst.bumps counters k) x = if x = w then 1 else 0)
    (hw : g.blocks[w]? = some block) :
    m.counters.count counters k = executions (q.visits host state limit) i w := by
  have hmeasure := measure_run (measures_count halone k) hrun
  have hzero : (Machine.initial q state).counters.count counters k = 0 :=
    h.declared.count_initial k
  rw [hzero, Nat.zero_add] at hmeasure
  rw [hmeasure]
  exact sum_occurrences (block?_eq_some_iff.mpr ⟨g, hg, hw⟩)
    (h.countP_eq hedit hf hg hlow hhigh honce) _

/-- The first slot of a function counts its calls. -/
theorem count_entry (h : p.Profiled s main counters q) (hedit : p.Edited splitting added q)
    (halone : q.CountsAlone counters) (hrun : q.run host state limit args = (m, .ok records))
    {i : ℕ} {f : Function} (hf : p.functions[i]? = some f) (hdef : f.isDeclaration = false) :
    m.counters.count counters (p.entrySlot i) = activations (q.visits host state limit) i := by
  obtain ⟨hvalid, -⟩ := exists_passes_of_run_eq_ok hrun
  obtain ⟨g, hg, hfg⟩ := hedit.exists_right hf
  have hslots := h.slots i f g hf hg hdef
  have hlen : 0 < g.blocks.length := by
    have hdecl := hfg.isDeclaration_eq.trans hdef
    simpa [Function.isDeclaration, List.length_pos_iff] using hdecl
  rw [← executions_zero hvalid (visits_fit hrun) i]
  exact count_eq_executions h hedit halone hrun hf hg le_rfl
    (by rw [Function.slots_eq hdef]; omega) hslots.entry (List.getElem?_eq_getElem hlen)

/-- The slot of an edge counts how often the run took it. -/
theorem count_edge (h : p.Profiled s main counters q) (hedit : p.Edited splitting added q)
    (halone : q.CountsAlone counters) (hrun : q.run host state limit args = (m, .ok records))
    {i j : ℕ} {f : Function} (hf : p.functions[i]? = some f) (hdef : f.isDeclaration = false)
    {edge : BlockId × ℕ} (hedge : (f.edges f.blocks.length)[j]? = some edge) :
    m.counters.count counters (p.entrySlot i + 1 + j) =
      departures (q.visits host state limit) i edge.1 edge.2 := by
  obtain ⟨hvalid, -⟩ := exists_passes_of_run_eq_ok hrun
  obtain ⟨g, hg, hfg⟩ := hedit.exists_right hf
  obtain ⟨w, hw⟩ := (h.slots i f g hf hg hdef).counted j edge hedge
  have hj : j < (f.edges f.blocks.length).length := (List.getElem?_eq_some_iff.mp hedge).1
  have hhigh : p.entrySlot i + 1 + j < p.entrySlot i + f.slots := by
    rw [Function.slots_eq hdef]
    omega
  have hlt := hw.isEdge.lt
  have hsource := List.getElem?_eq_getElem hlt
  have hsourceBlock : q.block? i edge.1 = some g.blocks[edge.1] :=
    block?_eq_some_iff.mpr ⟨g, hg, hsource⟩
  have hplace := hw.place
  have hisEdge := hw.isEdge
  unfold Function.HasEdge at hisEdge
  rw [Function.successors_eq hsource] at hplace hisEdge
  rcases hplace with ⟨hone, rfl⟩ | ⟨hd, hpred⟩
  · rw [count_eq_executions h hedit halone hrun hf hg (by omega) hhigh hw.once hsource,
      executions_eq_departures_zero hrun hsourceBlock hone]
    obtain ⟨b, succ⟩ := edge
    obtain rfl : succ = 0 := by
      simp only at hisEdge hone
      omega
    rfl
  · have hbound := hvalid g (List.mem_of_getElem? hg) _ (List.mem_of_getElem? hsource) w
      (List.mem_of_getElem? hd)
    rw [count_eq_executions h hedit halone hrun hf hg (by omega) hhigh hw.once
      (List.getElem?_eq_getElem hbound.1)]
    refine executions_eq_departures (visits_fit hrun) hbound.2 hsourceBlock hd ?_
    intro b' block' succ' hb' hs'
    obtain ⟨g', hg', hb'⟩ := block?_eq_some_iff.mp hb'
    obtain rfl : g = g' := Option.some.inj (hg.symm.trans hg')
    exact Function.eq_of_predecessorCount hpred hsource hd hb' hs'

end Program

end FlowProfile
