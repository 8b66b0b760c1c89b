import FlowProfile.Proofs.Instrument.EdgeSlots

/-!
# When instrumentation adds blocks

Counting the edges of a program puts a block onto every critical one. Nothing else adds blocks,
so a program has as many as it had if no edge is counted or none is critical, and more otherwise.
-/

namespace FlowProfile

/-! ### One function -/

namespace Function

variable {f g : Function} {counters : String} {slot : ℕ}

theorem isCritical_congr (h : g.terminators = f.terminators) (b : BlockId) (succ : ℕ) :
    g.isCritical b succ = f.isCritical b succ := by
  simp only [isCritical, successors_congr h, predecessorCount_congr h]

/-- The terminators stay if the edge is not critical, and are those of a split if it is. -/
theorem countEdge_terminators {b : BlockId} {succ : ℕ}
    (h : f.countEdge counters (b, succ) slot = .ok g) :
    ∃ source, f.blocks[b]? = some source ∧
      ((f.isCritical b succ = false ∧ g.terminators = f.terminators) ∨
        ∃ dest target, source.terminator.successors[succ]? = some dest ∧
          f.isCritical b succ = true ∧
          g.terminators = (f.split b succ (crossing source target dest)).terminators) := by
  simp only [countEdge, Outcome.bind_eq_ok_iff, block_eq_ok_iff, Prod.exists] at h
  obtain ⟨mid, fresh, hsplit, block, hb, h⟩ := h
  have hinsert : Edited False (· = .increment counters slot) mid g := by
    split at h
    · exact .insertAtEnd rfl h
    · split at h
      · exact .insertAt rfl h
      · cases h
  obtain ⟨source, hs, ⟨hc, rfl⟩ | ⟨dest, target, hd, ht, hout, hin, rfl⟩⟩ :=
    splitCritical_cases hsplit
  · exact ⟨source, hs, .inl ⟨Bool.eq_false_iff.mpr hc, hinsert.terminators_eq⟩⟩
  · refine ⟨source, hs, .inr ⟨dest, target, hd, ?_, hinsert.terminators_eq⟩⟩
    simp [isCritical, successors_eq hs, hd, hout, hin]

/-- The terminators stay if the edge is not critical, and a block is added if it is. -/
theorem countEdge_cases {edge : BlockId × ℕ} (h : f.countEdge counters edge slot = .ok g) :
    (f.isCritical edge.1 edge.2 = false ∧ g.terminators = f.terminators) ∨
      (f.isCritical edge.1 edge.2 = true ∧ f.blocks.length < g.blocks.length) := by
  obtain ⟨source, -, hsame | ⟨dest, target, -, hc, hterm⟩⟩ := countEdge_terminators h
  · exact .inl hsame
  · refine .inr ⟨hc, ?_⟩
    rw [length_blocks_congr hterm, length_split]
    exact Nat.lt_succ_self _

theorem countEdgesFrom_length_eq_iff {edges : List (BlockId × ℕ)}
    (h : f.countEdgesFrom counters edges slot = .ok g) :
    g.blocks.length = f.blocks.length ↔ ∀ e ∈ edges, f.isCritical e.1 e.2 = false := by
  induction edges generalizing f slot with
  | nil =>
      obtain rfl : f = g := by simpa [countEdgesFrom] using h
      simp
  | cons edge edges ih =>
      simp only [countEdgesFrom, Outcome.bind_eq_ok_iff] at h
      obtain ⟨mid, hmid, h⟩ := h
      rw [List.forall_mem_cons]
      rcases countEdge_cases hmid with ⟨hc, hterm⟩ | ⟨hc, hlt⟩
      · -- the edges that are left are as critical as before
        have hrest := ih h
        simp only [isCritical_congr hterm, length_blocks_congr hterm] at hrest
        simp only [hrest, hc, true_and]
      · have hle := (countEdgesFrom_edited h).length_le
        simp only [hc, reduceCtorEq, false_and, iff_false]
        omega

/-- All edges are counted, and so every critical one is split. -/
theorem countEdges_length_eq_iff (h : f.countEdges counters f.blocks.length slot = .ok g) :
    g.blocks.length = f.blocks.length ↔ ∀ b succ, f.isCritical b succ = false := by
  simp only [countEdges, Outcome.bind_eq_ok_iff] at h
  obtain ⟨mid, hmid, h⟩ := h
  obtain ⟨block, hb, hi, rfl⟩ := insertAt_eq_ok_iff.mp hmid
  have hterm : (f.insert 0 0 (.increment counters slot)).terminators = f.terminators :=
    terminators_insert ..
  have hiff := countEdgesFrom_length_eq_iff h
  simp only [isCritical_congr hterm, length_insert] at hiff
  rw [hiff]
  constructor
  · intro hall b succ
    by_contra hc
    have hedge := HasEdge.of_isCritical (Bool.eq_true_of_not_eq_false hc)
    exact hc (hall (b, succ) (mem_edges.mpr ⟨hedge.lt, hedge⟩))
  · exact fun hall e _ => hall e.1 e.2

end Function

/-! ### Programs -/

namespace Program

variable {splitting : Prop} {added : Inst → Prop} {p q r : Program}

/-- Some edge is critical. -/
def HasCritical (p : Program) : Prop :=
  ∃ f ∈ p.functions, ∃ b succ, f.isCritical b succ = true

theorem hasCritical_iff : p.HasCritical ↔
    ∃ f ∈ p.functions, ∃ e ∈ f.edges f.blocks.length, f.isCritical e.1 e.2 = true := by
  constructor
  · rintro ⟨f, hf, b, succ, hc⟩
    have hedge := Function.HasEdge.of_isCritical hc
    exact ⟨f, hf, (b, succ), Function.mem_edges.mpr ⟨hedge.lt, hedge⟩, hc⟩
  · rintro ⟨f, hf, e, -, hc⟩
    exact ⟨f, hf, e.1, e.2, hc⟩

instance (p : Program) : Decidable p.HasCritical := decidable_of_iff' _ hasCritical_iff

theorem not_hasCritical_iff :
    ¬p.HasCritical ↔ ∀ f ∈ p.functions, ∀ b succ, f.isCritical b succ = false := by
  simp [HasCritical]

theorem Edited.blockCounts_eq_iff (h : p.Edited splitting added q) :
    q.blockCounts = p.blockCounts ↔ ∀ (i : ℕ) (f g : Function), p.functions[i]? = some f →
      q.functions[i]? = some g → g.blocks.length = f.blocks.length := by
  unfold blockCounts
  constructor
  · intro heq i f g hf hg
    have hi := congrArg (·[i]?) heq
    simpa [hf, hg] using hi
  · intro hall
    refine List.ext_getElem (by simp [h.length_eq]) fun i hi hi' => ?_
    rw [List.length_map] at hi hi'
    simp only [List.getElem_map]
    exact hall i _ _ (List.getElem?_eq_getElem hi') (List.getElem?_eq_getElem hi)

/-- Blocks are only ever added, so that their number tells whether there were any. -/
theorem Edited.blockCounts_eq_of_sum (h : p.Edited splitting added q)
    (hsum : q.blockCounts.sum = p.blockCounts.sum) : q.blockCounts = p.blockCounts := by
  have hle : List.Forall₂ (· ≤ ·) p.blockCounts q.blockCounts := by
    rw [blockCounts, blockCounts, List.forall₂_map_left_iff, List.forall₂_map_right_iff]
    exact List.Forall₂.imp (fun _ _ hfg => hfg.length_le) h
  exact eq_of_forall₂_le_of_sum_le hle hsum.le

/-- Insertions keep the blocks and the edges. -/
theorem Edited.blocks_eq (h : p.Edited False added q) :
    q.blockCounts = p.blockCounts ∧ (q.HasCritical ↔ p.HasCritical) := by
  refine ⟨h.blockCounts_eq_iff.mpr fun i f g hf hg =>
    Function.length_blocks_congr (h.get? hf hg).terminators_eq, ?_⟩
  unfold HasCritical
  constructor
  · rintro ⟨g, hg, b, succ, hc⟩
    obtain ⟨i, hi⟩ := List.mem_iff_getElem?.mp hg
    obtain ⟨f, hf, hfg⟩ := h.exists_left hi
    exact ⟨f, List.mem_of_getElem? hf, b, succ,
      (Function.isCritical_congr hfg.terminators_eq b succ).symm.trans hc⟩
  · rintro ⟨f, hf, b, succ, hc⟩
    obtain ⟨i, hi⟩ := List.mem_iff_getElem?.mp hf
    obtain ⟨g, hg, hfg⟩ := h.exists_right hi
    exact ⟨g, List.mem_of_getElem? hg, b, succ,
      (Function.isCritical_congr hfg.terminators_eq b succ).trans hc⟩

theorem countEdges_blockCounts {counters : String}
    (h : p.countEdges p.blockCounts counters = .ok q) :
    q.blockCounts = p.blockCounts ↔ ¬p.HasCritical := by
  have hlen : p.blockCounts.length = p.functions.length := List.length_map ..
  have hspec := (countEdges_eq_ok hlen h).2.2.2
  rw [(countEdges_spec (fun _ => True) hlen h).2.2.blockCounts_eq_iff, not_hasCritical_iff]
  have hfunction : ∀ (i : ℕ) (f g : Function), p.functions[i]? = some f →
      q.functions[i]? = some g →
      (g.blocks.length = f.blocks.length ↔ ∀ b succ, f.isCritical b succ = false) := by
    intro i f g hf hg
    obtain ⟨limit, g', hlimit, hg', hcase⟩ := hspec i f hf
    obtain rfl : g = g' := Option.some.inj (hg.symm.trans hg')
    obtain rfl : f.blocks.length = limit := by simpa [blockCounts, hf] using hlimit
    split at hcase
    · rename_i hdecl
      subst hcase
      simp [Function.isCritical, Function.successors, List.isEmpty_iff.mp hdecl]
    · exact Function.countEdges_length_eq_iff hcase
  constructor
  · intro hall f hf
    obtain ⟨i, hi⟩ := List.mem_iff_getElem?.mp hf
    obtain ⟨g, hg, -⟩ := (countEdges_spec (fun _ => True) hlen h).2.2.exists_right hi
    exact (hfunction i f g hi hg).mp (hall i f g hi hg)
  · intro hall i f g hf hg
    exact (hfunction i f g hf hg).mpr (hall f (List.mem_of_getElem? hf))

end Program

/-! ### Strategies -/

/-- The instruction counts no edge. -/
def Inst.CountsNoEdge (inst : Inst) : Prop := ∀ counters slot, inst.bumps counters slot = false

namespace Instrumenter

variable {ins : Instrumenter} {p q : Program} {main : ℕ}

/-- At most one strategy of a list counts edges. -/
theorem countsEdges_unique {strategies : List Strategy}
    (hone : ¬(Strategy.edge ∈ strategies ∧ Strategy.edgeRank ∈ strategies)) {s t : Strategy}
    (hs : s ∈ strategies) (ht : t ∈ strategies) (hcounts : s.countsEdges)
    (hcounts' : t.countsEdges) : t = s := by
  rcases hcounts with rfl | rfl <;> rcases hcounts' with rfl | rfl
  · rfl
  · exact absurd ⟨hs, ht⟩ hone
  · exact absurd ⟨ht, hs⟩ hone
  · rfl

/-- Among all that is done for the strategies of a list, the edges are counted once, and nothing
before or after that counts edges or puts blocks onto them. -/
theorem applyAll_countEdges {s : Strategy} {counters : String}
    (hone : ¬(Strategy.edge ∈ ins.strategies ∧ Strategy.edgeRank ∈ ins.strategies))
    (hs : s ∈ ins.strategies) (hpass : Pass.edges counters ∈ s.passes)
    (h : ins.applyAll p.blockCounts main p = .ok q) :
    ∃ before counted, p.Edited False Inst.CountsNoEdge before ∧
      before.countEdges p.blockCounts counters = .ok counted ∧
      counted.Edited False Inst.CountsNoEdge q ∧ ∀ g, counted.Declares g → q.Declares g := by
  have hlen : p.blockCounts.length = p.functions.length := List.length_map ..
  have hedges : s.countsEdges := Strategy.countsEdges_of_splits hpass trivial
  obtain ⟨first, second, hfirst, hsecond, hrest⟩ :=
    applyAll_split hlen p.copies_true (fun _ _ => trivial) hs h
  have hother : ∀ t, t ∈ ins.strategies ∧ t ≠ s → ¬t.countsEdges ∧ t ≠ s := fun t ht =>
    ⟨fun hcounts => ht.2 (countsEdges_unique hone hs ht.1 hedges hcounts), ht.2⟩
  obtain ⟨counters', ranks, hpasses, hranks⟩ := Strategy.passes_of_countsEdges hedges
  obtain rfl : counters = counters' := by
    rw [hpasses] at hpass
    rcases List.mem_cons.mp hpass with heq | hpass
    · exact Pass.edges.inj heq
    · obtain ⟨rank, heq⟩ := hranks _ hpass
      cases heq
  simp only [apply, hpasses, List.foldlM_cons, Outcome.bind_eq_ok_iff] at hsecond
  obtain ⟨ranked, ⟨counted, hcount, hranked⟩, hregister⟩ := hsecond
  obtain ⟨hranksEdit, hranksDecl⟩ := ranks_edited s counted.copies_true hranks hranked
  obtain ⟨hglobals, hregisterEdit⟩ := Program.update_insertAtStart_edited hregister
  refine ⟨first, counted, (hfirst.edited_neutral hother).mono id fun _ hn => hn.1, hcount, ?_,
    fun g hg => hrest.declares g ?_⟩
  · refine (hranksEdit.mono id fun _ hn => hn.1).trans (.trans (hregisterEdit.mono id ?_)
      ((hrest.edited_neutral hother).mono id fun _ hn => hn.1))
    rintro inst rfl
    exact fun _ _ => rfl
  · unfold Program.Declares
    rw [hglobals]
    exact hranksDecl g hg

theorem applyAll_blockCounts
    (hone : ¬(Strategy.edge ∈ ins.strategies ∧ Strategy.edgeRank ∈ ins.strategies))
    (h : ins.applyAll p.blockCounts main p = .ok q) :
    q.blockCounts = p.blockCounts ↔ ¬((∃ s ∈ ins.strategies, s.countsEdges) ∧ p.HasCritical) := by
  by_cases hcounts : ∃ s ∈ ins.strategies, s.countsEdges
  · obtain ⟨s, hs, hedges⟩ := hcounts
    obtain ⟨counters, ranks, hpasses, -⟩ := Strategy.passes_of_countsEdges hedges
    obtain ⟨before, counted, hfirst, hcount, hrest, -⟩ :=
      applyAll_countEdges hone hs (hpasses ▸ List.mem_cons_self) h
    obtain ⟨hbefore, hcritical⟩ := hfirst.blocks_eq
    rw [← hbefore] at hcount
    rw [hrest.blocks_eq.1, ← hbefore, Program.countEdges_blockCounts hcount, hcritical, not_and]
    exact ⟨fun hnone _ => hnone, fun hnone => hnone ⟨s, hs, hedges⟩⟩
  · have hlen : p.blockCounts.length = p.functions.length := List.length_map ..
    have hother : ∀ t, t ∈ ins.strategies → ¬t.countsEdges ∧ t ≠ .edge := fun t ht =>
      ⟨fun hc => hcounts ⟨t, ht, hc⟩, fun heq => hcounts ⟨t, ht, .inl heq⟩⟩
    obtain ⟨hgrows, -, -⟩ := strategies_grow hlen p.copies_true (fun _ _ => trivial) h
    simp [(hgrows.edited_neutral hother).blocks_eq.1, hcounts]

end Instrumenter

end FlowProfile
