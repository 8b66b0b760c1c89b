import FlowProfile.Proofs.Instrument.EdgeSlots

/-!
# The arrays and the registrations of an instrumented program

Every pass of every strategy has one array, with as many slots as the plain program needs,
and its size fits a word of 32 bits. Every strategy is registered at one place.
-/

namespace FlowProfile.Instrumenter

variable {ins : Instrumenter} {blocks : List ℕ} {p q : Program} {main : ℕ}

/-- A pass fails if its array does not fit a word. -/
theorem size_lt {pass : Pass} (h : ins.pass blocks p pass = .ok q) :
    pass.size blocks p < 2 ^ 32 := by
  cases pass with
  | rank counters => exact Nat.one_lt_two_pow (by decide)
  | edges counters | comm counters | time counters =>
      simp only [Instrumenter.pass, Program.countEdges, Program.trapComm, Program.trapTime,
        Outcome.bind_eq_ok_iff, narrow_eq_ok_iff] at h
      obtain ⟨len, ⟨hlt, -⟩, -⟩ := h
      exact hlt
  | weights counters =>
      simp only [Instrumenter.pass, Program.weighBlocks, Outcome.bind_eq_ok_iff,
        narrow_eq_ok_iff] at h
      obtain ⟨updates, -, len, ⟨hlt, -⟩, -⟩ := h
      exact hlt

/-- All arrays but those of the plain program fit a word. -/
theorem applyAll_narrow (hblocks : blocks.length = p.functions.length)
    (h : ins.applyAll blocks main p = .ok q) : ∀ g ∈ q.globals, g ∈ p.globals ∨ g.len < 2 ^ 32 := by
  refine (applyAll_invariant
    (fun r => blocks.length = r.functions.length ∧ ∀ g ∈ r.globals, g ∈ p.globals ∨ g.len < 2 ^ 32)
    ?_ ?_ ⟨hblocks, fun g hg => .inl hg⟩ h).2
  · rintro pass r r' ⟨hlen, hkept⟩ hr
    obtain ⟨-, hglobals, hedited⟩ := pass_spec hlen r.copies_true (fun _ _ => trivial) hr
    refine ⟨hlen.trans hedited.length_eq.symm, ?_⟩
    intro g hg
    rw [hglobals, List.mem_append, List.mem_singleton] at hg
    rcases hg with hg | rfl
    · exact hkept g hg
    · exact .inr (size_lt hr)
  · rintro s r r' ⟨hlen, hkept⟩ hr
    obtain ⟨hglobals, hedited⟩ := Program.update_insertAtStart_edited hr
    exact ⟨hlen.trans hedited.length_eq.symm, hglobals ▸ hkept⟩

theorem applyAll_lt (hblocks : blocks.length = p.functions.length)
    (h : ins.applyAll blocks main p = .ok q) {pass : Pass} (hnone : p.global? pass.counters = none)
    {len : ℕ} (hdecl : q.Declares (pass.global len)) : len < 2 ^ 32 := by
  have hmem : pass.global len ∈ q.globals.filter (·.name == (pass.global len).name) :=
    hdecl ▸ List.mem_singleton_self _
  rcases applyAll_narrow hblocks h _ (List.mem_filter.mp hmem).1 with hown | hlt
  · exact absurd rfl (Program.global?_eq_none_iff.mp hnone _ hown)
  · exact hlt

/-- Whatever other strategies are used, each array is as long as the plain program needs it. -/
theorem applyAll_declares (hvalid : p.IsValid) (hp : p.IsOriginal)
    (hone : ¬(Strategy.edge ∈ ins.strategies ∧ Strategy.edgeRank ∈ ins.strategies))
    (h : ins.applyAll p.blockCounts main p = .ok q) {s : Strategy} (hs : s ∈ ins.strategies)
    {pass : Pass} (hpass : pass ∈ s.passes) :
    q.Declares (pass.global (pass.size p.blockCounts p)) ∧ pass.size p.blockCounts p < 2 ^ 32 := by
  have hblocks : p.blockCounts.length = p.functions.length := List.length_map ..
  obtain ⟨-, -, hall⟩ := strategies_grow hblocks p.copies_true (fun _ _ => trivial) h
  obtain ⟨hnone, len, hdecl, hlen⟩ := hall s hs pass hpass
  have hdeclares : q.Declares (pass.global (pass.size p.blockCounts p)) := by
    by_cases hsplits : pass.Splits
    · have hcounts := Strategy.countsEdges_of_splits hpass hsplits
      obtain ⟨counters, rest, hpasses, hrest⟩ := Strategy.passes_of_countsEdges hcounts
      obtain rfl : pass = .edges counters := by
        rw [hpasses] at hpass
        rcases List.mem_cons.mp hpass with heq | hmem
        · exact heq
        · obtain ⟨ranks, rfl⟩ := hrest pass hmem
          exact hsplits.elim
      rw [size_edges]
      exact (applyAll_profiled hvalid hp hs hcounts hone hpasses hrest h).declared
    · exact hlen.resolve_left hsplits ▸ hdecl
  exact ⟨hdeclares, applyAll_lt hblocks h hnone hdeclares⟩

/-- The calls that register a strategy are not there before it and not added by others. -/
theorem applyAll_registered (hblocks : blocks.length = p.functions.length) (hp : p.IsOriginal)
    {s : Strategy} (hs : s ∈ ins.strategies) (h : ins.applyAll blocks main p = .ok q) (i : ℕ)
    (g : Function) (hg : q.functions[i]? = some g) (x : BlockId) :
    g.tally (Inst.registers s) x = if i = main ∧ x = 0 then 1 else 0 := by
  obtain ⟨first, second, hfirst, hsecond, hrest⟩ :=
    applyAll_split hblocks p.copies_true (fun _ _ => trivial) hs h
  let kept (r : Program) : Prop := blocks.length = r.functions.length ∧
    ∀ (i : ℕ) (g : Function), r.functions[i]? = some g → ∀ x, g.tally (Inst.registers s) x = 0
  have hkept : kept first := by
    refine ⟨hblocks.trans hfirst.edited.length_eq.symm, fun i g hg x => ?_⟩
    obtain ⟨f, hf, hfg⟩ := hfirst.edited.exists_left hg
    rw [hfg.tally_eq fun inst ha => ha.registers_eq_false fun t ht => ht.2]
    refine Program.tally_eq_zero hf (fun inst hi => ?_) x
    exact (Inst.neutral_of_isOriginal (hp.hasInst hi) s).2
  have hpass : ∀ pass ∈ s.passes, ∀ r r', kept r → ins.pass blocks r pass = .ok r' → kept r' := by
    rintro pass - r r' ⟨hlen, hzero⟩ hr
    obtain ⟨-, -, hedited⟩ := pass_spec hlen r.copies_true (fun _ _ => trivial) hr
    refine ⟨hlen.trans hedited.length_eq.symm, fun i g hg x => ?_⟩
    obtain ⟨f, hf, hfg⟩ := hedited.exists_left hg
    rw [hfg.tally_eq (fun inst ha => by cases ha <;> rfl), hzero i f hf]
  simp only [apply, Outcome.bind_eq_ok_iff] at hsecond
  obtain ⟨passed, hpassed, hregister⟩ := hsecond
  have hzero := (Outcome.foldlM_invariant kept hpass hkept hpassed).2
  obtain ⟨f, hf, hfg⟩ := hrest.edited.exists_left hg
  rw [hfg.tally_eq fun inst ha => ha.registers_eq_false fun t ht => ht.2]
  exact tally_register hzero hregister i f hf x

/-- What instrumenting makes of a plain program, with or without the entry function. -/
theorem instrument_grows (hp : p.IsOriginal) (h : ins.instrument p = .ok q) :
    p.IsValid ∧ ∃ used : Strategy → Prop, p.Grows (fun _ => True) used q ∧
      ∀ s, used s → ∀ pass ∈ s.passes,
        q.Declares (pass.global (pass.size p.blockCounts p)) ∧
          pass.size p.blockCounts p < 2 ^ 32 := by
  cases hmain : p.functionIndex? ins.entry with
  | none =>
      simp only [instrument, hmain, Outcome.bind_eq_ok_iff, Outcome.pure_eq_ok_iff] at h
      obtain ⟨_, hvalid, rfl⟩ := h
      exact ⟨(Program.validate_eq_ok_iff p).mp hvalid, fun _ => False, .refl p,
        fun _ hs => hs.elim⟩
  | some main =>
      obtain ⟨hvalid, -, hone, happly⟩ := instrument_eq_ok hmain h
      obtain ⟨hgrows, -, -⟩ :=
        strategies_grow (List.length_map ..) p.copies_true (fun _ _ => trivial) happly
      exact ⟨hvalid, (· ∈ ins.strategies), hgrows,
        fun s hs pass hpass => applyAll_declares hvalid hp hone happly hs hpass⟩

end FlowProfile.Instrumenter
