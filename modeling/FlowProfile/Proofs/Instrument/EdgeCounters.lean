import FlowProfile.Instrument.Edges
import FlowProfile.Proofs.Graph.Edited

/-!
# Where edges are counted

The increment of an edge stands in one block alone, and that block runs as often as the
edge is taken: the source has no other edge out, or the block has no other edge in. Later
edges keep this, though they split edges of the same graph.
-/

namespace FlowProfile

/-- Is it the increment of this slot? -/
def Inst.bumps (counters : String) (slot : ℕ) (inst : Inst) : Bool :=
  inst = .increment counters slot

namespace Function

/-! ### The block that counts an edge -/

/-- The slot is raised in block `w` alone, which runs as often as the edge is taken. -/
structure Counts (f : Function) (counters : String) (slot : ℕ) (edge : BlockId × ℕ)
    (w : BlockId) : Prop where
  isEdge : f.HasEdge edge
  once : ∀ x, f.tally (Inst.bumps counters slot) x = if x = w then 1 else 0
  place : (f.successors edge.1).length = 1 ∧ w = edge.1 ∨
    (f.successors edge.1)[edge.2]? = some w ∧ f.predecessorCount w = 1

variable {f g : Function} {counters : String} {slot k : ℕ} {edge : BlockId × ℕ} {w : BlockId}

theorem Counts.of_terminators (h : f.Counts counters slot edge w)
    (hsucc : ∀ x, g.successors x = f.successors x)
    (hpred : ∀ x, g.predecessorCount x = f.predecessorCount x)
    (htally : ∀ x, g.tally (Inst.bumps counters slot) x = f.tally (Inst.bumps counters slot) x) :
    g.Counts counters slot edge w := by
  obtain ⟨hedge, honce, hplace⟩ := h
  refine ⟨?_, ?_, ?_⟩
  · simpa [HasEdge, hsucc] using hedge
  · intro x
    rw [htally, honce]
  · rwa [hsucc, hpred]

theorem Counts.insert (h : f.Counts counters slot edge w) {b : BlockId} {block : Block}
    {index : ℕ} {inst : Inst} (hb : f.blocks[b]? = some block) (hi : index ≤ block.insts.length)
    (hother : inst.bumps counters slot = false) :
    (f.insert b index inst).Counts counters slot edge w := by
  apply h.of_terminators
  · exact successors_insert f b index inst
  · exact predecessorCount_congr (terminators_insert f b index inst)
  · intro x
    rw [tally_insert hb hi, hother]
    simp

/-- Splitting another edge moves no increment, and adds no predecessor. -/
theorem Counts.split (h : f.Counts counters slot edge w) (hf : f.IsValid) {b : BlockId}
    {succ : ℕ} {source target : Block} {dest : BlockId} (hs : f.blocks[b]? = some source)
    (hd : source.terminator.successors[succ]? = some dest) (hother : edge ≠ (b, succ)) :
    (f.split b succ (crossing source target dest)).Counts counters slot edge w := by
  obtain ⟨hedge, honce, hplace⟩ := h
  refine ⟨hedge.split, ?_, ?_⟩
  · intro x
    rw [tally_split, honce]
  · rcases hplace with ⟨hlen, hw⟩ | ⟨hw, hpred⟩
    · refine .inl ⟨?_, hw⟩
      rw [length_successors_split hedge.lt, hlen]
    · have hne : f.blocks.length ≠ w := (successor_lt hf.not_dangles hw).ne'
      refine .inr ⟨?_, ?_⟩
      · rw [getElem?_successors_split hedge.lt hother, hw]
      · rw [predecessorCount_split hs hd, hpred, if_neg hne]

/-- What is true after one more edge is counted. -/
structure CountStep (f : Function) (counters : String) (edge : BlockId × ℕ) (slot : ℕ)
    (g : Function) : Prop where
  valid : g.IsValid
  edges : ∀ e, f.HasEdge e → g.HasEdge e
  others : ∀ k, k ≠ slot → ∀ x,
    g.tally (Inst.bumps counters k) x = f.tally (Inst.bumps counters k) x
  kept : ∀ k e w, k ≠ slot → e ≠ edge → f.Counts counters k e w → g.Counts counters k e w
  counted : (∀ x, f.tally (Inst.bumps counters slot) x = 0) → ∃ w, g.Counts counters slot edge w

/-- An increment at a block that runs as often as the edge is taken. -/
theorem CountStep.of_insert (hf : f.IsValid) {b : BlockId} {block : Block} {index : ℕ}
    (hb : f.blocks[b]? = some block) (hi : index ≤ block.insts.length) (hedge : f.HasEdge edge)
    (hplace : (f.successors edge.1).length = 1 ∧ b = edge.1 ∨
      (f.successors edge.1)[edge.2]? = some b ∧ f.predecessorCount b = 1) :
    f.CountStep counters edge slot (f.insert b index (.increment counters slot)) where
  valid := (isValid_congr (terminators_insert _ _ _ _)).mpr hf
  edges e he := he.insert
  others k hk x := by
    rw [tally_insert hb hi]
    simp [Inst.bumps, hk.symm]
  kept k e w hk he h := h.insert hb hi (by simp [Inst.bumps, hk.symm])
  counted hzero := by
    refine ⟨b, hedge.insert, ?_, ?_⟩
    · intro x
      rw [tally_insert hb hi, hzero]
      simp [Inst.bumps]
    · simpa [predecessorCount_congr (terminators_insert f b index (.increment counters slot))]
        using hplace

/-- After a split the edge has a block of its own, or it needs none. -/
theorem place_of_splitCritical {b : BlockId} {succ : ℕ} {fresh : Option BlockId}
    (hf : f.IsValid) (hedge : f.HasEdge (b, succ))
    (h : f.splitCritical b succ = .ok (g, fresh)) (hlen : (g.successors b).length ≠ 1) :
    ∃ dest, (g.successors b)[succ]? = some dest ∧ g.predecessorCount dest = 1 := by
  obtain ⟨source, hs, ⟨hc, rfl⟩ | ⟨dest, target, hd, ht, hout, hin, rfl⟩⟩ := splitCritical_cases h
  · have hlt : succ < (g.successors b).length := hedge
    have hd := List.getElem?_eq_getElem hlt
    refine ⟨_, hd, ?_⟩
    have hpos : 0 < g.predecessorCount (g.successors b)[succ] := by
      apply predecessorCount_pos hs
      rw [← successors_eq hs]
      exact List.getElem_mem hlt
    simp only [isCritical, hd, Bool.and_eq_true, decide_eq_true_eq, not_and, Nat.not_lt] at hc
    have := hc (by omega)
    omega
  · refine ⟨f.blocks.length, getElem?_successors_split_self hedge, ?_⟩
    rw [predecessorCount_split hs hd, predecessorCount_eq_zero hf.not_dangles le_rfl, if_pos rfl]

theorem countEdge_step (hf : f.IsValid) (hedge : f.HasEdge edge)
    (h : f.countEdge counters edge slot = .ok g) : f.CountStep counters edge slot g := by
  obtain ⟨b, succ⟩ := edge
  simp only [countEdge, Outcome.bind_eq_ok_iff, block_eq_ok_iff, Prod.exists] at h
  obtain ⟨mid, fresh, hsplit, block, hb, h⟩ := h
  have hplace := place_of_splitCritical hf hedge hsplit
  have hedited : Edited True (fun _ => False) f mid := .splitCritical hsplit
  have hmid : mid.IsValid := hedited.isValid hf
  have htally : ∀ k x, mid.tally (Inst.bumps counters k) x = f.tally (Inst.bumps counters k) x :=
    fun k x => hedited.tally_eq (fun _ hfalse => hfalse.elim) x
  have hedges : ∀ e, f.HasEdge e → mid.HasEdge e := by
    intro e he
    obtain ⟨source, hs, ⟨-, rfl⟩ | ⟨dest, target, hd, ht, hout, hin, rfl⟩⟩ :=
      splitCritical_cases hsplit
    · exact he
    · exact he.split
  have hkept : ∀ k e w, e ≠ (b, succ) → f.Counts counters k e w → mid.Counts counters k e w := by
    intro k e w he hcounts
    obtain ⟨source, hs, ⟨-, rfl⟩ | ⟨dest, target, hd, ht, hout, hin, rfl⟩⟩ :=
      splitCritical_cases hsplit
    · exact hcounts
    · exact hcounts.split hf hs hd he
  have hstep : mid.CountStep counters (b, succ) slot g := by
    rw [← successors_eq hb] at h
    by_cases hone : (mid.successors b).length = 1
    · rw [if_pos hone] at h
      obtain ⟨block', hb', rfl⟩ := insertAtEnd_eq_ok_iff.mp h
      exact .of_insert hmid hb' le_rfl (hedges _ hedge) (.inl ⟨hone, rfl⟩)
    · rw [if_neg hone] at h
      obtain ⟨dest, hd, hpred⟩ := hplace hone
      simp only [hd] at h
      obtain ⟨block', hb', hi, rfl⟩ := insertAt_eq_ok_iff.mp h
      exact .of_insert hmid hb' hi (hedges _ hedge) (.inr ⟨hd, hpred⟩)
  exact {
    valid := hstep.valid
    edges := fun e he => hstep.edges e (hedges e he)
    others := fun k hk x => by rw [hstep.others k hk, htally]
    kept := fun k e w hk he hc => hstep.kept k e w hk he (hkept k e w he hc)
    counted := fun hzero => hstep.counted fun x => by rw [htally, hzero] }

/-! ### All edges of a function -/

theorem mem_edges {f : Function} {limit : ℕ} {edge : BlockId × ℕ} :
    edge ∈ f.edges limit ↔ edge.1 < limit ∧ f.HasEdge edge := by
  obtain ⟨b, succ⟩ := edge
  simp only [edges, List.mem_flatMap, List.mem_map, List.mem_range, Prod.exists, Prod.mk.injEq,
    List.mk_mem_zipIdx_iff_getElem?, HasEdge]
  constructor
  · rintro ⟨block, b, hb, succ, hs, rfl, rfl⟩
    rw [List.getElem?_take] at hb
    split at hb
    · rename_i hlt
      exact ⟨hlt, by rwa [successors_eq hb]⟩
    · cases hb
  · rintro ⟨hlt, hs⟩
    have hedge : f.HasEdge (b, succ) := hs
    have hb : b < f.blocks.length := hedge.lt
    refine ⟨f.blocks[b], b, ?_, succ, ?_, rfl, rfl⟩
    · rw [List.getElem?_take_of_lt hlt, List.getElem?_eq_getElem hb]
    · rwa [successors_eq (List.getElem?_eq_getElem hb)] at hs

theorem nodup_edges (f : Function) (limit : ℕ) : (f.edges limit).Nodup := by
  unfold edges
  rw [List.nodup_flatMap]
  constructor
  · rintro ⟨block, b⟩ -
    exact List.nodup_range.map (Prod.mk_right_injective b)
  · rw [List.pairwise_iff_getElem]
    intro i j hi hj hij
    simp only [List.getElem_zipIdx, Nat.zero_add, Function.onFun, List.disjoint_left, List.mem_map]
    rintro edge ⟨_, -, rfl⟩ ⟨_, -, heq⟩
    exact hij.ne' (Prod.ext_iff.mp heq).1

/-- What is true after the edges of a list are counted in consecutive slots. -/
structure EdgesCounted (f : Function) (counters : String) (edges : List (BlockId × ℕ))
    (slot : ℕ) (g : Function) : Prop where
  others : ∀ k, k < slot ∨ slot + edges.length ≤ k → ∀ x,
    g.tally (Inst.bumps counters k) x = f.tally (Inst.bumps counters k) x
  kept : ∀ k e w, k < slot ∨ slot + edges.length ≤ k → e ∉ edges →
    f.Counts counters k e w → g.Counts counters k e w
  counted : ∀ i e, edges[i]? = some e → ∃ w, g.Counts counters (slot + i) e w

theorem countEdgesFrom_spec {edges : List (BlockId × ℕ)} (hf : f.IsValid) (hnodup : edges.Nodup)
    (hedges : ∀ e ∈ edges, f.HasEdge e)
    (hzero : ∀ k, slot ≤ k → ∀ x, f.tally (Inst.bumps counters k) x = 0)
    (h : f.countEdgesFrom counters edges slot = .ok g) :
    f.EdgesCounted counters edges slot g := by
  induction edges generalizing f slot with
  | nil =>
      obtain rfl : f = g := by simpa [countEdgesFrom] using h
      exact ⟨fun _ _ _ => rfl, fun _ _ _ _ _ hc => hc, by simp⟩
  | cons edge edges ih =>
      obtain ⟨hnew, hnodup⟩ := List.nodup_cons.mp hnodup
      simp only [countEdgesFrom, Outcome.bind_eq_ok_iff] at h
      obtain ⟨mid, hmid, h⟩ := h
      have hstep := countEdge_step hf (hedges edge List.mem_cons_self) hmid
      have hmidZero : ∀ k, slot + 1 ≤ k → ∀ x, mid.tally (Inst.bumps counters k) x = 0 := by
        intro k hk x
        rw [hstep.others k (by omega), hzero k (by omega)]
      have hrest := ih hstep.valid hnodup
        (fun e he => hstep.edges e (hedges e (List.mem_cons_of_mem _ he))) hmidZero h
      refine ⟨?_, ?_, ?_⟩
      · intro k hk x
        rw [List.length_cons] at hk
        rw [hrest.others k (by omega), hstep.others k (by omega)]
      · intro k e w hk he hc
        rw [List.length_cons] at hk
        rw [List.mem_cons, not_or] at he
        exact hrest.kept k e w (by omega) he.2 (hstep.kept k e w (by omega) he.1 hc)
      · intro i e hi
        cases i with
        | zero =>
            obtain rfl : edge = e := by simpa using hi
            obtain ⟨w, hw⟩ := hstep.counted (hzero slot le_rfl)
            exact ⟨w, hrest.kept slot edge w (by omega) hnew hw⟩
        | succ i =>
            rw [List.getElem?_cons_succ] at hi
            obtain ⟨w, hw⟩ := hrest.counted i e hi
            exact ⟨w, by rwa [show slot + (i + 1) = slot + 1 + i by omega]⟩

/-- The slots of a function: the first counts the entry, and the others its edges in order. -/
structure SlotsCounted (g : Function) (counters : String) (edges : List (BlockId × ℕ))
    (slot : ℕ) : Prop where
  entry : ∀ x, g.tally (Inst.bumps counters slot) x = if x = 0 then 1 else 0
  counted : ∀ i e, edges[i]? = some e → ∃ w, g.Counts counters (slot + 1 + i) e w
  others : ∀ k, k < slot ∨ slot + 1 + edges.length ≤ k → ∀ x,
    g.tally (Inst.bumps counters k) x = 0

theorem countEdges_spec {limit : ℕ} (hf : f.IsValid)
    (hzero : ∀ k x, f.tally (Inst.bumps counters k) x = 0)
    (h : f.countEdges counters limit slot = .ok g) :
    g.SlotsCounted counters (f.edges limit) slot := by
  simp only [countEdges, Outcome.bind_eq_ok_iff] at h
  obtain ⟨mid, hmid, h⟩ := h
  obtain ⟨block, hb, hi, rfl⟩ := insertAt_eq_ok_iff.mp hmid
  have htally : ∀ k x, (f.insert 0 0 (.increment counters slot)).tally (Inst.bumps counters k) x =
      if x = 0 ∧ k = slot then 1 else 0 := by
    intro k x
    rw [tally_insert hb hi, hzero]
    simp [Inst.bumps, eq_comm]
  have hspec := countEdgesFrom_spec
    ((isValid_congr (terminators_insert f 0 0 (.increment counters slot))).mpr hf)
    (nodup_edges f limit) (fun e he => (mem_edges.mp he).2.insert)
    (fun k hk x => by rw [htally, if_neg (by omega)]) h
  refine ⟨?_, hspec.counted, ?_⟩
  · intro x
    rw [hspec.others slot (by omega), htally]
    simp
  · intro k hk x
    rw [hspec.others k (by omega), htally, if_neg (by omega)]

/-! ### Counting as editing -/

/-- The increments of the slots from `first` to before `last`. -/
inductive BumpsBetween (counters : String) (first last : ℕ) : Inst → Prop where
  | increment {slot : ℕ} (hf : first ≤ slot) (hl : slot < last) :
      BumpsBetween counters first last (.increment counters slot)

theorem BumpsBetween.mono {first last first' last' : ℕ} {inst : Inst} (hf : first' ≤ first)
    (hl : last ≤ last') (h : BumpsBetween counters first last inst) :
    BumpsBetween counters first' last' inst := by
  obtain ⟨hlow, hhigh⟩ := h
  exact ⟨hf.trans hlow, Nat.lt_of_lt_of_le hhigh hl⟩

theorem countEdge_edited (h : f.countEdge counters edge slot = .ok g) :
    Edited True (BumpsBetween counters slot (slot + 1)) f g := by
  simp only [countEdge, Outcome.bind_eq_ok_iff, block_eq_ok_iff, Prod.exists] at h
  obtain ⟨mid, fresh, hsplit, block, hb, h⟩ := h
  have hadd : BumpsBetween counters slot (slot + 1) (.increment counters slot) :=
    ⟨le_rfl, Nat.lt_succ_self _⟩
  refine (Edited.splitCritical hsplit).trans ?_
  split at h
  · exact .insertAtEnd hadd h
  · split at h
    · exact .insertAt hadd h
    · cases h

theorem countEdgesFrom_edited {edges : List (BlockId × ℕ)}
    (h : f.countEdgesFrom counters edges slot = .ok g) :
    Edited True (BumpsBetween counters slot (slot + edges.length)) f g := by
  induction edges generalizing f slot with
  | nil =>
      obtain rfl : f = g := by simpa [countEdgesFrom] using h
      exact .refl
  | cons edge edges ih =>
      simp only [countEdgesFrom, Outcome.bind_eq_ok_iff] at h
      obtain ⟨mid, hmid, h⟩ := h
      rw [List.length_cons]
      exact ((countEdge_edited hmid).mono id fun _ => .mono le_rfl (by omega)).trans
        ((ih h).mono id fun _ => .mono (by omega) (by omega))

theorem countEdges_edited {limit : ℕ} (h : f.countEdges counters limit slot = .ok g) :
    Edited True (BumpsBetween counters slot (slot + 1 + (f.edges limit).length)) f g := by
  simp only [countEdges, Outcome.bind_eq_ok_iff] at h
  obtain ⟨mid, hmid, h⟩ := h
  exact (Edited.insertAt ⟨le_rfl, by omega⟩ hmid).trans
    ((countEdgesFrom_edited h).mono id fun _ => .mono (by omega) le_rfl)

end Function

/-! ### All functions -/

/-- The slots of the functions before the one at `i`. -/
def slotsBefore (functions : List (Function × ℕ)) (i : ℕ) : ℕ :=
  ((functions.take i).map fun x => x.1.countedSlots x.2).sum

theorem countFunctions_cons {counters : String} {f : Function} {limit : ℕ}
    {functions : List (Function × ℕ)} {slot last : ℕ} {counted : List Function}
    (h : countFunctions counters ((f, limit) :: functions) slot = .ok (counted, last)) :
    ∃ g others, (if f.isDeclaration then g = f else f.countEdges counters limit slot = .ok g) ∧
      countFunctions counters functions (slot + f.countedSlots limit) = .ok (others, last) ∧
      counted = g :: others := by
  unfold countFunctions at h
  split at h
  · rename_i hdecl
    simp only [Outcome.bind_eq_ok_iff, Outcome.pure_eq_ok_iff, Prod.exists, Prod.mk.injEq] at h
    obtain ⟨g, rfl, others, _, hrest, rfl, rfl⟩ := h
    exact ⟨f, others, by simp [hdecl], hrest, rfl⟩
  · rename_i hdecl
    simp only [Outcome.bind_eq_ok_iff, Outcome.pure_eq_ok_iff, Prod.exists, Prod.mk.injEq] at h
    obtain ⟨g, hg, others, _, hrest, rfl, rfl⟩ := h
    exact ⟨g, others, by simpa [hdecl] using hg, hrest, rfl⟩

theorem countFunctions_spec {counters : String} {functions : List (Function × ℕ)} {slot last : ℕ}
    {counted : List Function} (h : countFunctions counters functions slot = .ok (counted, last)) :
    counted.length = functions.length ∧
      ∀ (i : ℕ) (f : Function) (limit : ℕ), functions[i]? = some (f, limit) →
        ∃ g, counted[i]? = some g ∧
          if f.isDeclaration then g = f
          else f.countEdges counters limit (slot + slotsBefore functions i) = .ok g := by
  induction functions generalizing slot counted with
  | nil =>
      obtain ⟨rfl, -⟩ : [] = counted ∧ slot = last := by simpa [countFunctions] using h
      simp
  | cons x functions ih =>
      obtain ⟨f, limit⟩ := x
      obtain ⟨g, others, hg, hrest, rfl⟩ := countFunctions_cons h
      obtain ⟨hlen, hspec⟩ := ih hrest
      refine ⟨by simp [hlen], ?_⟩
      intro i f' limit' hi
      cases i with
      | zero =>
          obtain ⟨rfl, rfl⟩ : f = f' ∧ limit = limit' := by simpa using hi
          exact ⟨g, rfl, by simpa [slotsBefore] using hg⟩
      | succ i =>
          obtain ⟨g', hg', hcase⟩ := hspec i f' limit' (by simpa using hi)
          refine ⟨g', by simpa using hg', ?_⟩
          simpa [slotsBefore, Nat.add_assoc] using hcase

end FlowProfile
