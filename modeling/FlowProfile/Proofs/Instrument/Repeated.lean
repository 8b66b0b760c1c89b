import FlowProfile.Proofs.Instrument.Erasure
import FlowProfile.Proofs.Instrument.Instrumented
import FlowProfile.Proofs.Instrument.Splitting

/-!
# Instrumenting once or twice

Strategies can be spread over two calls. What comes out is the same as that of one call for all
of them, but for one combination: blocks that the first call put onto edges are weighed by the
second one, which takes them for blocks of the program.
-/

namespace FlowProfile

namespace Instrumenter

variable {ins : Instrumenter} {p q r : Program} {main : ℕ} {xs ys : List Strategy} {entry : String}
  {weights : List BlockWeight}

theorem instrument_eq_applyAll (hvalid : p.IsValid)
    (hmain : p.functionIndex? ins.entry = some main)
    (hdef : ∃ f, p.functions[main]? = some f ∧ f.isDeclaration = false)
    (hone : ¬(Strategy.edge ∈ ins.strategies ∧ Strategy.edgeRank ∈ ins.strategies)) :
    ins.instrument p = ins.applyAll p.blockCounts main p := by
  obtain ⟨f, hf, hdef⟩ := hdef
  have hfunction : p.function main = .ok f := Outcome.get_eq_ok_iff.mpr hf
  have hbody : ¬f.isDeclaration := by simp [hdef]
  simp only [instrument, (Program.validate_eq_ok_iff p).mpr hvalid, hmain, hfunction,
    Outcome.ok_bind, Outcome.require_of hbody, Outcome.require_of hone]

theorem instrument_of_functionIndex?_eq_none (hvalid : p.IsValid)
    (hmain : p.functionIndex? ins.entry = none) : ins.instrument p = .ok p := by
  simp only [instrument, (Program.validate_eq_ok_iff p).mpr hvalid, hmain]
  rfl

/-- Only strategies that count edges or weigh blocks ask how many blocks there were at first. -/
theorem apply_eq_of_not_countsEdges {blocks blocks' : List ℕ} {s : Strategy}
    (hcounts : ¬s.countsEdges) (hweight : s ≠ .weightedBlock) :
    ins.apply blocks main p s = ins.apply blocks' main p s := by
  cases s with
  | edge => exact absurd (.inl rfl) hcounts
  | edgeRank => exact absurd (.inr rfl) hcounts
  | weightedBlock => exact absurd rfl hweight
  | rank | comm | time => rfl

/-- Weighing declares one slot for each of the blocks that are given. -/
theorem weighs_sum {blocks : List ℕ} {strategies : List Strategy}
    (hblocks : blocks.length = p.functions.length) (hs : .weightedBlock ∈ strategies)
    (h : strategies.foldlM (ins.apply blocks main) p = .ok q) :
    q.Declares ((Pass.weights "__commprof_block_weights").global blocks.sum) := by
  obtain ⟨-, -, hall⟩ := strategies_grow hblocks p.copies_true (fun _ _ => trivial) h
  obtain ⟨-, len, hdecl, hlen⟩ := hall .weightedBlock hs _ List.mem_cons_self
  obtain rfl : len = blocks.sum := hlen.resolve_left not_false
  exact hdecl

/-- Strategies that come after others are applied to the blocks that these left. It makes no
difference unless some of these are new and are weighed. -/
theorem strategies_twice_iff
    (hone : ¬(Strategy.edge ∈ xs ++ ys ∧ Strategy.edgeRank ∈ xs ++ ys))
    (hxs : xs.foldlM (ins.apply p.blockCounts main) p = .ok q)
    (hys : ys.foldlM (ins.apply p.blockCounts main) q = .ok r) :
    ys.foldlM (ins.apply q.blockCounts main) q = .ok r ↔
      ¬((∃ s ∈ xs, s.countsEdges) ∧ p.HasCritical ∧ .weightedBlock ∈ ys) := by
  have hlen : p.blockCounts.length = p.functions.length := List.length_map ..
  have hboth : (xs ++ ys).foldlM (ins.apply p.blockCounts main) p = .ok r := by
    rw [List.foldlM_append, hxs]
    exact hys
  have hedited := (strategies_grow hlen p.copies_true (fun _ _ => trivial) hxs).1.edited
  have hblocks := @applyAll_blockCounts ⟨xs, ins.entry, ins.weights⟩ p q main
    (fun h => hone ⟨List.mem_append_left ys h.1, List.mem_append_left ys h.2⟩) hxs
  constructor
  · rintro htwice ⟨hcounts, hcritical, hweight⟩
    -- the weights of both results would have to be of one length
    have hsum := weighs_sum (List.length_map ..) hweight htwice
    have hsumOnce := weighs_sum (hlen.trans hedited.length_eq.symm) hweight hys
    have hsame := congrArg Global.len (hsum.unique hsumOnce rfl)
    exact hblocks.mp (hedited.blockCounts_eq_of_sum hsame) ⟨hcounts, hcritical⟩
  · intro hapart
    by_cases hkept : q.blockCounts = p.blockCounts
    · rw [hkept]
      exact hys
    · obtain ⟨⟨s, hs, hcounts⟩, hcritical⟩ := not_not.mp (mt hblocks.mpr hkept)
      refine (Outcome.foldlM_congr (fun t ht r => ?_) q).trans hys
      refine apply_eq_of_not_countsEdges (fun hedges => ?_) fun hweight => ?_
      · -- only one strategy counts edges, and it is among the first
        have heq := countsEdges_unique hone (List.mem_append_left ys hs)
          (List.mem_append_right xs ht) hcounts hedges
        obtain ⟨-, hnodup, -⟩ := strategies_grow hlen p.copies_true (fun _ _ => trivial) hboth
        exact (List.nodup_append.mp hnodup).2.2 s hs t ht heq.symm
      · exact hapart ⟨⟨s, hs, hcounts⟩, hcritical, hweight ▸ ht⟩

/-- A call for some strategies and another for the others do what one call does for all of them,
unless the first counts edges of which one is critical, and the second weighs blocks. -/
theorem instrument_append (h : (⟨xs ++ ys, entry, weights⟩ : Instrumenter).instrument p = .ok r) :
    ∃ q, (⟨xs, entry, weights⟩ : Instrumenter).instrument p = .ok q ∧
      ((⟨ys, entry, weights⟩ : Instrumenter).instrument q = .ok r ↔
        ¬((p.functionIndex? entry).isSome ∧ (∃ s ∈ xs, s.countsEdges) ∧ p.HasCritical ∧
          .weightedBlock ∈ ys)) := by
  have hvalid : p.IsValid := (instrument_edited h).1
  cases hmain : p.functionIndex? entry with
  | none =>
      rw [instrument_of_functionIndex?_eq_none hvalid hmain] at h
      obtain rfl := Except.ok.inj h
      refine ⟨p, instrument_of_functionIndex?_eq_none hvalid hmain, ?_⟩
      rw [instrument_of_functionIndex?_eq_none hvalid hmain]
      simp
  | some main =>
      obtain ⟨-, ⟨f, hf, hdef⟩, hone, happly⟩ := instrument_eq_ok hmain h
      obtain ⟨q, hxs, hys⟩ := Outcome.bind_eq_ok_iff.mp ((List.foldlM_append ..).symm.trans happly)
      obtain ⟨hgrows, -, -⟩ :=
        strategies_grow (List.length_map ..) p.copies_true (fun _ _ => trivial) hxs
      have hedited := hgrows.edited
      obtain ⟨g, hg, hfg⟩ := hedited.exists_right hf
      have hfirst : (⟨xs, entry, weights⟩ : Instrumenter).instrument p = .ok q :=
        (instrument_eq_applyAll hvalid hmain ⟨f, hf, hdef⟩ fun h =>
          hone ⟨List.mem_append_left ys h.1, List.mem_append_left ys h.2⟩).trans hxs
      have hsecond : (⟨ys, entry, weights⟩ : Instrumenter).instrument q =
          ys.foldlM (apply ⟨xs ++ ys, entry, weights⟩ q.blockCounts main) q :=
        instrument_eq_applyAll (hedited.isValid hvalid)
          ((hedited.functionIndex?_eq entry).trans hmain)
          ⟨g, hg, hfg.isDeclaration_eq.trans hdef⟩ fun h =>
            hone ⟨List.mem_append_right xs h.1, List.mem_append_right xs h.2⟩
      refine ⟨q, hfirst, ?_⟩
      rw [hsecond, strategies_twice_iff hone hxs hys]
      simp

end Instrumenter

/-- The edge past the body is critical. -/
def shortcut : Program where
  functions := [
    ⟨"main", [
      ⟨"entry", [], .condBr (.var "x") 1 2⟩,
      ⟨"body", [], .br 2⟩,
      ⟨"exit", [], .ret⟩]⟩]
  globals := []

theorem instrument_append_shortcut :
    ∃ q r, (⟨[.rank, .edge], "main", []⟩ : Instrumenter).instrument shortcut = .ok q ∧
      (⟨[.rank, .edge, .time], "main", []⟩ : Instrumenter).instrument shortcut = .ok r ∧
      (⟨[.time], "main", []⟩ : Instrumenter).instrument q = .ok r := by
  have hins : (⟨[.rank, .edge] ++ [.time], "main", []⟩ : Instrumenter).instrument shortcut =
      .ok _ := rfl
  obtain ⟨q, hq, hiff⟩ := Instrumenter.instrument_append hins
  exact ⟨q, _, hq, hins, hiff.mpr fun h => absurd h.2.2.2 (by decide)⟩

/-- The block on the critical edge is weighed by the second of two calls, and not by one call. -/
theorem instrument_append_not_same :
    ¬∀ (p r : Program) (xs ys : List Strategy) (entry : String) (weights : List BlockWeight),
      p.IsValid → p.IsPlain →
      (⟨xs ++ ys, entry, weights⟩ : Instrumenter).instrument p = .ok r →
      ∃ q, (⟨xs, entry, weights⟩ : Instrumenter).instrument p = .ok q ∧
        (⟨ys, entry, weights⟩ : Instrumenter).instrument q = .ok r := by
  intro h
  obtain ⟨q, hq, hr⟩ := h shortcut _ [.edge] [.weightedBlock] "main" [] (by decide) (by decide) rfl
  obtain rfl := Except.ok.inj hq
  exact absurd hr (by decide)

end FlowProfile
