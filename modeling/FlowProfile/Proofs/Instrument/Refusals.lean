import FlowProfile.Proofs.Instrument.Erasure
import FlowProfile.Proofs.Instrument.PassFailures
import FlowProfile.Proofs.Instrument.Repeated

/-!
# When instrumenting fails

A program is refused for what is wrong with it or with the strategies, and for nothing that a pass
finds in what other passes made of it.
-/

namespace FlowProfile

/-- The numbers of slots that the passes need fit a word of 32 bits. -/
structure Program.FitsWords (p : Program) : Prop where
  edges : p.edgeSlots < 2 ^ 32
  payloads : 2 * p.payloadSites.length < 2 ^ 32
  times : p.timedSites.length < 2 ^ 32
  blocks : p.blockCounts.sum < 2 ^ 32

/-- Could only a mistake in a pass, or a number of slots that fits no word, lead to it? -/
def Cause.isInternal : Cause → Bool
  | .notAWord | .tooManyEdges _ | .tooManyBlocks _ | .successorLost _ _ | .edgesMiscounted _ _ =>
    true
  | _ => false

namespace Program

variable {p : Program} {failure : Failure}

theorem validate_eq_error (h : p.validate = .error failure) :
    ∃ cause, failure = .error [] cause := by
  unfold validate at h
  split at h
  · rename_i cause _
    exact ⟨cause, (Except.error.inj h).symm⟩
  · cases h

theorem isInternal_eq_false_of_validate {cause : Cause} (h : p.validate = .fail cause) :
    cause.isInternal = false := by
  unfold validate at h
  split at h
  · rename_i cause' hcause
    obtain ⟨f, -, hcause⟩ := List.exists_of_findSome?_eq_some hcause
    obtain ⟨⟨block, i⟩, -, hcause⟩ := List.exists_of_findSome?_eq_some hcause
    obtain ⟨dest, -, hcause⟩ := List.exists_of_findSome?_eq_some hcause
    obtain rfl : cause' = cause := by simpa [Outcome.fail] using h
    unfold Function.defect? at hcause
    split_ifs at hcause <;> cases hcause <;> rfl
  · cases h

end Program

/-! ### Strategies -/

theorem Strategy.eq_weightedBlock {s : Strategy} {counters : String}
    (h : Pass.weights counters ∈ s.passes) : s = .weightedBlock := by
  cases s <;> simp [passes] at h ⊢

theorem Strategy.nodup_passes (s : Strategy) : s.passes.Nodup := by
  cases s <;> decide

/-- Why a program is not instrumented: it is not valid, or its entry function is found and has no
body, or the strategies do not go together or not with the program. -/
inductive Instrumenter.Refuses (ins : Instrumenter) (p : Program) : Cause → Prop where
  | invalid {cause : Cause} (h : p.validate = .fail cause) : Refuses ins p cause
  | withoutBody {f : Function} (hf : p.function? ins.entry = some f) (h : f.isDeclaration = true) :
      Refuses ins p (.entryWithoutBody ins.entry)
  | combined (hentry : p.function? ins.entry ≠ none) (hedge : .edge ∈ ins.strategies)
      (hrank : .edgeRank ∈ ins.strategies) : Refuses ins p .edgeStrategiesCombined
  | arrayExists (hentry : p.function? ins.entry ≠ none) {s : Strategy} (hs : s ∈ ins.strategies)
      {pass : Pass} (hpass : pass ∈ s.passes) (h : p.global? pass.counters ≠ none) :
      Refuses ins p (.counterExists pass.counters)
  | listedTwice (hentry : p.function? ins.entry ≠ none) {s : Strategy}
      (hs : 2 ≤ ins.strategies.count s) {pass : Pass} (hpass : pass ∈ s.passes) :
      Refuses ins p (.counterExists pass.counters)
  | misplaced (hentry : p.function? ins.entry ≠ none) (hs : .weightedBlock ∈ ins.strategies)
      {w : BlockWeight} (hw : w ∈ ins.weights) {cause : Cause} (h : p.Misplaces w cause) :
      Refuses ins p cause

namespace Instrumenter

variable {ins : Instrumenter} {splitting : Prop} {added : Inst → Prop} {p q r : Program}
  {main : ℕ} {failure : Failure}

/-- The two reasons for which a pass fails, whatever was done to the program before. -/
theorem pass_eq_error (hvalid : p.IsValid) (hp : p.FitsWords) (hedit : p.Edited splitting added r)
    (hadd : OnlyRegisters added) {pass : Pass}
    (h : ins.pass p.blockCounts r pass = .error failure) :
    (r.global? pass.counters ≠ none ∧ failure = .error [] (.counterExists pass.counters)) ∨
      (∃ counters, pass = .weights counters) ∧
        ∃ w ∈ ins.weights, ∃ cause, failure = .error [] cause ∧ p.Misplaces w cause := by
  have hsize : ∀ pass : Pass, ¬pass.Splits →
      pass.size p.blockCounts r = pass.size p.blockCounts p :=
    fun _ hsplits => Pass.size_eq hedit hadd p.blockCounts hsplits
  cases pass with
  | edges counters =>
      have hedges := hedit.size_edges counters
      exact .inl (Program.countEdges_eq_error (hedit.isValid hvalid) (hedges.trans_lt hp.edges) h)
  | rank counters => exact .inl (Program.trapRank_eq_error h)
  | comm counters =>
      have hcomm := hsize (.comm counters) not_false
      exact .inl (Program.trapComm_eq_error (hcomm.trans_lt hp.payloads) h)
  | time counters =>
      have htime := hsize (.time counters) not_false
      exact .inl (Program.trapTime_eq_error (htime.trans_lt hp.times) h)
  | weights counters =>
      exact (Program.weighBlocks_eq_error hedit hp.blocks h).imp_right fun h => ⟨⟨counters, rfl⟩, h⟩

theorem passes_globals {blocks : List ℕ} {passes : List Pass}
    (hblocks : blocks.length = p.functions.length)
    (h : passes.foldlM (ins.pass blocks) p = .ok q) :
    ∀ g ∈ q.globals, g ∈ p.globals ∨ ∃ pass ∈ passes, g.name = pass.counters := by
  refine (Outcome.foldlM_invariant (fun r => blocks.length = r.functions.length ∧
    ∀ g ∈ r.globals, g ∈ p.globals ∨ ∃ pass ∈ passes, g.name = pass.counters) ?_
    ⟨hblocks, fun g hg => .inl hg⟩ h).2
  rintro pass hpass r r' ⟨hlen, hkept⟩ hr
  obtain ⟨-, hglobals, hedited⟩ := pass_spec hlen r.copies_true (fun _ _ => trivial) hr
  refine ⟨hlen.trans hedited.length_eq.symm, fun g hg => ?_⟩
  rw [hglobals, List.mem_append, List.mem_singleton] at hg
  rcases hg with hg | rfl
  · exact hkept g hg
  · exact .inr ⟨pass, hpass, rfl⟩

/-- Every new array belongs to a pass of a strategy that was applied. -/
theorem strategies_globals {blocks : List ℕ} {strategies : List Strategy}
    (hblocks : blocks.length = p.functions.length)
    (h : strategies.foldlM (ins.apply blocks main) p = .ok q) :
    ∀ g ∈ q.globals, g ∈ p.globals ∨
      ∃ s ∈ strategies, ∃ pass ∈ s.passes, g.name = pass.counters := by
  refine (Outcome.foldlM_invariant (fun r => blocks.length = r.functions.length ∧
    ∀ g ∈ r.globals, g ∈ p.globals ∨ ∃ s ∈ strategies, ∃ pass ∈ s.passes, g.name = pass.counters)
    ?_ ⟨hblocks, fun g hg => .inl hg⟩ h).2
  rintro s hs r r' ⟨hlen, hkept⟩ hr
  obtain ⟨hgrows, -⟩ := apply_grows hlen r.copies_true (fun _ _ => trivial) hr
  refine ⟨hlen.trans hgrows.edited.length_eq.symm, fun g hg => ?_⟩
  simp only [apply, Outcome.bind_eq_ok_iff] at hr
  obtain ⟨mid, hmid, hregister⟩ := hr
  rw [(Program.update_insertAtStart_edited hregister).1] at hg
  rcases passes_globals hlen hmid g hg with hg | ⟨pass, hpass, hname⟩
  · exact hkept g hg
  · exact .inr ⟨s, hs, pass, hpass, hname⟩

/-- An array that is there when its pass comes was there before, or its strategy is listed twice. -/
theorem refuses_of_declared {before after : List Strategy} {first rest : List Pass} {s : Strategy}
    {pass : Pass} {mid : Program} (hentry : p.function? ins.entry ≠ none)
    (hstrategies : ins.strategies = before ++ s :: after)
    (hpasses : s.passes = first ++ pass :: rest)
    (hmid : before.foldlM (ins.apply p.blockCounts main) p = .ok mid)
    (hr : first.foldlM (ins.pass p.blockCounts) mid = .ok r)
    (hsome : r.global? pass.counters ≠ none) :
    ins.Refuses p (.counterExists pass.counters) := by
  have hblocks : p.blockCounts.length = p.functions.length := List.length_map ..
  obtain ⟨hgrows, -, -⟩ := strategies_grow hblocks p.copies_true (fun _ _ => trivial) hmid
  have hown : pass ∈ s.passes := by simp [hpasses]
  have hmem : s ∈ ins.strategies := by simp [hstrategies]
  by_cases hnone : p.global? pass.counters = none
  · have hnone := Program.global?_eq_none_iff.mp hnone
    have hsome := Program.global?_eq_none_iff.not.mp hsome
    push Not at hsome
    obtain ⟨g, hg, hname⟩ := hsome
    rcases passes_globals (hblocks.trans hgrows.edited.length_eq.symm) hr g hg with
      hg | ⟨pass', hpass', hname'⟩
    · rcases strategies_globals hblocks hmid g hg with hg | ⟨t, ht, pass', hpass', hname'⟩
      · exact absurd hname (hnone g hg)
      · obtain ⟨rfl, -⟩ := Strategy.pass_unique hown hpass' (hname.symm.trans hname')
        refine .listedTwice hentry ?_ hown
        have hpos := List.count_pos_iff.mpr ht
        rw [hstrategies, List.count_append, List.count_cons_self]
        omega
    · -- the passes of one strategy have arrays of their own
      have hown' : pass' ∈ s.passes := hpasses ▸ List.mem_append_left _ hpass'
      obtain ⟨-, rfl⟩ := Strategy.pass_unique hown hown' (hname.symm.trans hname')
      have hnodup := hpasses ▸ s.nodup_passes
      exact absurd rfl ((List.nodup_append.mp hnodup).2.2 pass hpass' pass List.mem_cons_self)
  · exact .arrayExists hentry hmem hown hnone

/-- The entry block stays, so that a strategy is registered there. -/
theorem exists_register (hedit : p.Edited splitting added r) {f : Function}
    (hf : p.functions[main]? = some f) (hbody : f.isDeclaration = false) (s : Strategy) :
    ∃ q, (r.update main fun f => f.insertAtStart 0 s.registration) = .ok q := by
  have hpos : 0 < f.blocks.length := by
    simpa [Function.isDeclaration, List.isEmpty_eq_false_iff, ← List.length_pos_iff] using hbody
  obtain ⟨block, hb, hplace⟩ := hedit.exists_place
    (Program.block?_eq_some_iff.mpr ⟨f, hf, List.getElem?_eq_getElem hpos⟩) (Nat.zero_le _)
  exact ⟨_, Program.update_insertAt_eq_ok hb hplace _⟩

/-- The first pass that fails does so for what is wrong with the program as it was, or because its
strategy came before. -/
theorem applyAll_eq_error (hvalid : p.IsValid) (hp : p.FitsWords)
    (hmain : p.functionIndex? ins.entry = some main) {f : Function}
    (hf : p.functions[main]? = some f) (hbody : f.isDeclaration = false)
    (h : ins.applyAll p.blockCounts main p = .error failure) :
    ∃ cause, failure = .error [] cause ∧ ins.Refuses p cause := by
  have hblocks : p.blockCounts.length = p.functions.length := List.length_map ..
  have hentry : p.function? ins.entry ≠ none := by
    rw [Program.function?_eq_bind, hmain, Option.bind_some, hf]
    exact Option.some_ne_none f
  obtain ⟨before, s, after, r, hstrategies, hr, hs⟩ := Outcome.foldlM_eq_error h
  obtain ⟨hgrows, -, -⟩ := strategies_grow hblocks p.copies_true (fun _ _ => trivial) hr
  have hlen := hblocks.trans hgrows.edited.length_eq.symm
  have hedit : ∀ {passes r'}, passes ⊆ s.passes →
      passes.foldlM (ins.pass p.blockCounts) r = .ok r' →
      p.Grows (fun _ => True) (fun _ => True) r' := fun hsub hr' =>
    (hgrows.mono fun _ _ => trivial).trans
      ((passes_grow hlen r.copies_true (fun _ _ => trivial) hsub hr').1.mono fun _ _ => trivial)
  rw [apply, Outcome.bind_eq_error_iff] at hs
  rcases hs with hs | ⟨mid, hmid, hs⟩
  · obtain ⟨first, pass, rest, r', hpasses, hr', hpass⟩ := Outcome.foldlM_eq_error hs
    have hgrows' := hedit (by simp [hpasses]) hr'
    rcases pass_eq_error hvalid hp hgrows'.edited Inst.Added.onlyRegisters hpass with
      ⟨hsome, rfl⟩ | ⟨⟨counters, rfl⟩, w, hw, cause, rfl, hmisplaced⟩
    · exact ⟨_, rfl, refuses_of_declared hentry hstrategies hpasses hr hr' hsome⟩
    · have hown : .weights counters ∈ s.passes := by simp [hpasses]
      obtain rfl := Strategy.eq_weightedBlock hown
      exact ⟨cause, rfl, .misplaced hentry (by simp [hstrategies]) hw hmisplaced⟩
  · obtain ⟨q, hq⟩ := exists_register (hedit (List.Subset.refl _) hmid).edited hf hbody s
    exact absurd hs (Outcome.ok_ne_error ⟨q, hq⟩)

/-- What is wrong with a program or its strategies is found. -/
theorem not_refuses (h : ins.instrument p = .ok q) (cause : Cause) : ¬ins.Refuses p cause := by
  intro hrefuses
  have hvalid : p.validate = .ok () := by
    obtain ⟨_, hvalid, -⟩ := Outcome.bind_eq_ok_iff.mp h
    exact hvalid
  cases hmain : p.functionIndex? ins.entry with
  | none =>
      have hnone : p.function? ins.entry = none := by rw [Program.function?_eq_bind, hmain]; rfl
      cases hrefuses with
      | invalid hinvalid => rw [hvalid] at hinvalid; cases hinvalid
      | withoutBody hf => rw [hnone] at hf; cases hf
      | _ => contradiction
  | some main =>
      obtain ⟨-, ⟨f, hf, hbody⟩, hone, happly⟩ := instrument_eq_ok hmain h
      have hblocks : p.blockCounts.length = p.functions.length := List.length_map ..
      obtain ⟨-, hnodup, hall⟩ :=
        strategies_grow hblocks p.copies_true (fun _ _ => trivial) happly
      cases hrefuses with
      | invalid hinvalid => rw [hvalid] at hinvalid; cases hinvalid
      | @withoutBody g hg hdecl =>
          rw [Program.function?_eq_bind, hmain, Option.bind_some, hf] at hg
          obtain rfl := Option.some.inj hg
          rw [hbody] at hdecl
          cases hdecl
      | combined _ hedge hrank => exact hone ⟨hedge, hrank⟩
      | arrayExists _ hs hpass hsome => exact hsome (hall _ hs _ hpass).1
      | @listedTwice _ s hs =>
          exact Nat.not_lt.mpr (List.nodup_iff_count_le_one.mp hnodup s) hs
      | misplaced _ hs hw hmisplaced =>
          obtain ⟨first, second, hfirst, hsecond, -⟩ :=
            applyAll_split hblocks p.copies_true (fun _ _ => trivial) hs happly
          simp only [apply, Strategy.passes, List.foldlM_cons, pass, Program.weighBlocks,
            Outcome.bind_eq_ok_iff] at hsecond
          obtain ⟨_, ⟨_, ⟨updates, hupdates, -⟩, -⟩, -⟩ := hsecond
          obtain ⟨u, hu⟩ := Outcome.exists_of_mapM hupdates hw
          exact Program.not_misplaces hfirst.edited hu cause hmisplaced

theorem Refuses.isInternal_eq_false {cause : Cause} (h : ins.Refuses p cause) :
    cause.isInternal = false := by
  cases h with
  | invalid h => exact Program.isInternal_eq_false_of_validate h
  | misplaced _ _ _ h => cases h <;> rfl
  | _ => rfl

theorem instrument_eq_error (hp : p.FitsWords) (h : ins.instrument p = .error failure) :
    ∃ cause, failure = .error [] cause ∧ ins.Refuses p cause := by
  rw [instrument, Outcome.bind_eq_error_iff] at h
  rcases h with h | ⟨_, hvalid, h⟩
  · obtain ⟨cause, rfl⟩ := Program.validate_eq_error h
    exact ⟨cause, rfl, .invalid h⟩
  · have hvalid := (Program.validate_eq_ok_iff p).mp hvalid
    cases hmain : p.functionIndex? ins.entry with
    | none => simp only [hmain] at h; cases h
    | some main =>
        obtain ⟨f, hname, hf, -⟩ := Program.exists_function_of_functionIndex? hmain
        have hentry : p.function? ins.entry ≠ none := hname ▸ Option.some_ne_none f
        have hfunction : p.function main = .ok f := Outcome.get_eq_ok_iff.mpr hf
        simp only [hmain, hfunction, Outcome.ok_bind, Outcome.bind_eq_error_iff,
          Outcome.require_eq_error_iff, Outcome.require_eq_ok_iff, not_not] at h
        rcases h with ⟨hdecl, rfl⟩ | ⟨_, hbody, ⟨⟨hedge, hrank⟩, rfl⟩ | ⟨_, -, h⟩⟩
        · exact ⟨_, rfl, .withoutBody hname hdecl⟩
        · exact ⟨_, rfl, .combined hentry hedge hrank⟩
        · exact applyAll_eq_error hvalid hp hmain hf (by simpa using hbody) h

variable (ins) in
/-- Instrumenting fails if the program is not valid, or if the entry function is there and the
program or the strategies are refused for one of the other reasons, and then the failure tells the
reason. Nothing else makes it fail: no place and no edge gets lost on the way, what is counted is
what was reserved, and each call is still at its place when it is trapped. -/
theorem instrument_fails_iff (hp : p.FitsWords) :
    ((∃ failure, ins.instrument p = .error failure) ↔ ∃ cause, ins.Refuses p cause) ∧
      (∀ failure, ins.instrument p = .error failure →
        ∃ cause, failure = .error [] cause ∧ ins.Refuses p cause ∧ cause.isInternal = false) ∧
      (p.IsValid → p.function? ins.entry = none → ins.instrument p = .ok p) ∧
      ∀ (counters : String) (r declared mid : Program)
        (trapped rest : List (Comm.PayloadSite × ℕ)) (s : Comm.PayloadSite) (i : ℕ),
        declared.functions = r.functions →
        r.payloadSites.zipIdx.reverse = trapped ++ (s, i) :: rest →
        trapped.foldlM (Program.trapPayload counters) declared = .ok mid →
        s ∈ mid.payloadSites := by
  refine ⟨⟨?_, ?_⟩, ?_, ?_, ?_⟩
  · rintro ⟨failure, h⟩
    obtain ⟨cause, -, hrefuses⟩ := instrument_eq_error hp h
    exact ⟨cause, hrefuses⟩
  · rintro ⟨cause, hrefuses⟩
    cases h : ins.instrument p with
    | error failure => exact ⟨failure, rfl⟩
    | ok q => exact absurd hrefuses (not_refuses h cause)
  · intro failure h
    obtain ⟨cause, rfl, hrefuses⟩ := instrument_eq_error hp h
    exact ⟨cause, rfl, hrefuses, hrefuses.isInternal_eq_false⟩
  · intro hvalid hnone
    refine instrument_of_functionIndex?_eq_none hvalid ?_
    cases hmain : p.functionIndex? ins.entry with
    | none => rfl
    | some main =>
        obtain ⟨f, hf, -⟩ := Program.exists_function_of_functionIndex? hmain
        rw [hnone] at hf
        cases hf
  · intro counters r declared mid trapped rest s i hfunctions hsites h
    exact Program.mem_payloadSites_of_trapped hfunctions hsites h

end Instrumenter

/-- A declaration has no block to weigh. Without the weight the program is refused for nothing. -/
theorem instrument_fails_iff_sendByRank :
    sendByRank.FitsWords ∧
      (∃ failure, Instrumenter.instrument ⟨[.comm, .weightedBlock], "main",
        [⟨"MPI_Send", 0, .const 1⟩]⟩ sendByRank = .error failure) ∧
      ¬∃ cause, Instrumenter.Refuses ⟨[.comm, .weightedBlock], "main", []⟩ sendByRank cause := by
  have hfits : sendByRank.FitsWords := ⟨by decide, by decide, by decide, by decide⟩
  refine ⟨hfits, ?_, ?_⟩
  · refine (Instrumenter.instrument_fails_iff _ hfits).1.mpr ⟨_, .misplaced (by decide)
      (by decide) List.mem_cons_self (.outOfRange (f := ⟨"MPI_Send", []⟩) rfl (Nat.le_refl 0))⟩
  · rw [← (Instrumenter.instrument_fails_iff _ hfits).1]
    rintro ⟨failure, h⟩
    cases h

end FlowProfile
