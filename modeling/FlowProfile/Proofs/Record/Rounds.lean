import FlowProfile.Proofs.Exec.Handlers
import FlowProfile.Proofs.Exec.Records
import FlowProfile.Proofs.Instrument.Instrumented

/-!
# The records of a process

Behind its arguments an instrumented process writes one record for each strategy whenever it entered
the entry function. If that function is entered again, so by a call of itself, all its
counters are written again.
-/

namespace FlowProfile

/-- The kinds of records. Some of them come with one rank. -/
def Strategy.Writes : Strategy → Record → Prop
  | .edge, .edges _ [] | .edgeRank, .edges _ [_] | .rank, .ranks [_] | .comm, .comm _
  | .time, .time _ [_] | .weightedBlock, .weightedBlocks _ => True
  | _, _ => False

/-- Arrays of the declared types make a record of the right kind, with as many ranks as are kept. -/
theorem Counters.record_writes {cs : Counters} {s : Strategy}
    (h : ∀ pass ∈ s.passes, ∃ len, cs.shape pass.counters = some (pass.type, len) ∧
      (pass.type = .i32 → len = 1)) :
    ∃ record, cs.record s.handler = .ok record ∧ s.Writes record := by
  choose! len hshape hlen using h
  obtain ⟨words, ranks, hwords⟩ :=
    exists_words s.entryPoint fun pass hpass => ⟨len pass, hshape pass hpass⟩
  obtain ⟨-, hranks⟩ := length_words hshape hwords
  have hone : ∀ {name}, s.passes.filter (·.type = .i32) = [.rank name] →
      ∃ rank, ranks = [rank] := by
    intro name hfilter
    have hmem : Pass.rank name ∈ s.passes.filter (·.type = .i32) :=
      hfilter ▸ List.mem_singleton_self _
    rw [hfilter] at hranks
    exact List.length_eq_one_iff.mp (hranks.trans (hlen _ (List.mem_filter.mp hmem).1 rfl))
  refine ⟨_, record_handler hwords, ?_⟩
  cases s with
  | edge =>
      obtain rfl := List.eq_nil_of_length_eq_zero hranks
      trivial
  | comm => trivial
  | weightedBlock => trivial
  | edgeRank | rank | time =>
      obtain ⟨rank, rfl⟩ := hone rfl
      trivial

/-- A run begins with a call of `main`. -/
theorem Program.activations_main_pos {σ : Type} {p : Program} {host : Host σ} {state : σ}
    {limit : ℕ} {args : List String} {records : List Record} {main : ℕ}
    (hmain : p.functionIndex? "main" = some main)
    (h : (p.run host state limit args).2 = .ok records) :
    0 < activations (p.visits host state limit) main := by
  obtain ⟨c, hstart, -, -⟩ := run_eq_ok_iff.mp (Prod.ext rfl h)
  obtain ⟨-, main', entry, hmain', -, rfl⟩ := start_eq_ok_iff.mp hstart
  obtain rfl := Option.some.inj (hmain'.symm.trans hmain)
  rw [visits, hstart]
  simp [activations]

namespace Instrumenter

variable {σ : Type} {ins : Instrumenter} {p q : Program} {main : ℕ} {records : List Record}

/-- The arrays of the strategies that were used have the types of their passes, and room for one
rank. -/
theorem applyAll_shape {blocks : List ℕ} (hblocks : blocks.length = p.functions.length)
    (h : ins.applyAll blocks main p = .ok q) {s : Strategy} (hs : s ∈ ins.strategies)
    {pass : Pass} (hpass : pass ∈ s.passes) :
    ∃ len, (Counters.initial q).shape pass.counters = some (pass.type, len) ∧
      (pass.type = .i32 → len = 1) := by
  obtain ⟨-, -, hall⟩ := strategies_grow hblocks p.copies_true (fun _ _ => trivial) h
  obtain ⟨-, len, hdecl, hlen⟩ := hall s hs pass hpass
  refine ⟨len, hdecl.shape_initial, fun htype => ?_⟩
  cases pass with
  | rank counters => exact hlen.resolve_left id
  | _ => cases htype

/-- An instrumented process writes its arguments, and then one record for each strategy, of the kind
of that strategy and the last strategy first, as often as it entered the entry function. -/
theorem records_eq_rounds (hp : p.IsUninstrumented) (hins : ins.instrument p = .ok q)
    (hentry : ins.entry = "main") (hsome : ins.strategies ≠ []) (host : Host σ) (state : σ)
    (limit : ℕ) (args : List String) (hrun : (q.run host state limit args).2 = .ok records)
    (hmain : p.functionIndex? "main" = some main) :
    0 < activations (q.visits host state limit) main ∧ ∃ written : Strategy → Record,
      (∀ s ∈ ins.strategies, s.Writes (written s)) ∧
      records = .arguments args :: (List.replicate (activations (q.visits host state limit) main)
        (ins.strategies.reverse.map written)).flatten := by
  obtain ⟨m, hm⟩ : ∃ m, q.run host state limit args = (m, .ok records) := ⟨_, Prod.ext rfl hrun⟩
  obtain ⟨-, -, -, happly⟩ := instrument_eq_ok (hentry ▸ hmain) hins
  have hblocks : p.blockCounts.length = p.functions.length := List.length_map ..
  obtain ⟨hgrows, -, -⟩ := strategies_grow hblocks p.copies_true (fun _ _ => trivial) happly
  have hpos := Program.activations_main_pos
    ((hgrows.edited.functionIndex?_eq "main").trans hmain) hrun
  refine ⟨hpos, ?_⟩
  have hregisters : q.Registers (· ∈ ins.strategies) := hgrows.registers hp
  have hhandlers := hregisters.handlers_eq
    (strategies_registersAt hblocks (hp.1.registersAt main) happly) hm
  rw [List.append_nil] at hhandlers
  -- every handler writes a record of its kind
  have hwrites : ∀ s ∈ ins.strategies, ∃ record, m.counters.record s.handler = .ok record ∧
      s.Writes record := by
    intro s hs
    refine Counters.record_writes fun pass hpass => ?_
    rw [Program.shape_run hm]
    exact applyAll_shape hblocks happly hs hpass
  have hnonempty : Nonempty Record := ⟨.arguments args⟩
  choose! written hrecord hkind using hwrites
  refine ⟨written, hkind, ?_⟩
  have hmapM : m.handlers.mapM m.counters.record =
      .ok (m.handlers.map fun handler => written handler.1) := by
    refine Outcome.mapM_eq_ok_map fun handler hmem => ?_
    obtain ⟨s, hs, rfl⟩ := hregisters.handlers_run hm handler hmem
    exact hrecord s hs
  obtain ⟨-, -, -, hwritten⟩ := Program.run_eq_ok_iff.mp hm
  rcases Machine.records_eq_ok_iff.mp hwritten with ⟨hempty, -⟩ | ⟨-, handled, hhandled, rfl⟩
  · rw [hhandlers, List.flatten_eq_nil_iff] at hempty
    have hround := hempty _ (List.mem_replicate.mpr ⟨hpos.ne', rfl⟩)
    exact absurd (by simpa using hround) hsome
  · rw [hmapM] at hhandled
    obtain rfl := Except.ok.inj hhandled
    rw [hhandlers, List.map_flatten, List.map_replicate, List.map_map]
    rfl

end Instrumenter

/-- A function that calls itself once. -/
def callsItself : Program where
  functions := [
    ⟨"main", [
      ⟨"entry", [.op "add" (some "i") [.var "i", .const 1],
        .op "lt" (some "again") [.var "i", .const 2]], .condBr (.var "again") 1 2⟩,
      ⟨"call", [.call (.direct "main") []], .br 2⟩,
      ⟨"exit", [], .ret⟩]⟩]
  globals := []

def callsItselfCounted : Program where
  functions := [
    ⟨"main", [
      ⟨"entry", [Strategy.rank.registration, Strategy.edge.registration,
        .increment "__commprof_edge_counters" 0, .op "add" (some "i") [.var "i", .const 1],
        .op "lt" (some "again") [.var "i", .const 2]], .condBr (.var "again") 1 3⟩,
      ⟨"call", [.increment "__commprof_edge_counters" 1, .call (.direct "main") [],
        .increment "__commprof_edge_counters" 3], .br 2⟩,
      ⟨"exit", [], .ret⟩,
      ⟨"entry.exit_crit_edge", [.increment "__commprof_edge_counters" 2], .br 2⟩]⟩]
  globals := [⟨"__commprof_edge_counters", .u64, 4, 0⟩, ⟨"__commprof_rank", .i32, 1, -1⟩]

theorem records_callsItself :
    activations (callsItselfCounted.visits MpiProcess.host (.start 0 1 .zero) 100) 0 = 2 ∧
    ∃ written : Strategy → Record, Strategy.edge.Writes (written .edge) ∧
      [.arguments [], .ranks [-1], .edges [2, 1, 1, 1] [], .ranks [-1], .edges [2, 1, 1, 1] []] =
        [.arguments [], written .rank, written .edge, written .rank, written .edge] := by
  have hins : Instrumenter.instrument ⟨[.edge, .rank], "main", []⟩ callsItself =
      .ok callsItselfCounted := rfl
  have hrun : (callsItselfCounted.run MpiProcess.host (.start 0 1 .zero) 100 []).2 =
      .ok [.arguments [], .ranks [-1], .edges [2, 1, 1, 1] [], .ranks [-1],
        .edges [2, 1, 1, 1] []] := rfl
  have htwice : activations
      (callsItselfCounted.visits MpiProcess.host (.start 0 1 .zero) 100) 0 = 2 := rfl
  obtain ⟨-, written, hkind, hrecords⟩ := Instrumenter.records_eq_rounds (by decide) hins rfl
    (by decide) MpiProcess.host (.start 0 1 .zero) 100 [] hrun rfl
  rw [htwice] at hrecords
  exact ⟨htwice, written, hkind .edge (by decide), hrecords⟩

/-- Not every process writes one record for each strategy: the counts of one that enters `main`
twice are doubled when its records are added up. -/
theorem records_not_once :
    ¬(∀ (ins : Instrumenter) (p q : Program) (host : Host MpiProcess) (state : MpiProcess)
        (limit : ℕ) (args : List String) (records : List Record),
      p.IsPlain → ins.instrument p = .ok q → ins.entry = "main" → ins.strategies ≠ [] →
      (q.run host state limit args).2 = .ok records →
      records.length = 1 + ins.strategies.length) ∧
    ∃ profile, Profile.ofRecords [.arguments [], .ranks [-1], .edges [2, 1, 1, 1] [], .ranks [-1],
        .edges [2, 1, 1, 1] []] = .ok profile ∧ profile.edgeCounts = some [4, 2, 2, 2] := by
  refine ⟨fun h => ?_, _, rfl, rfl⟩
  have hlen := h ⟨[.edge, .rank], "main", []⟩ callsItself callsItselfCounted MpiProcess.host
    (.start 0 1 .zero) 100 [] _ (by decide) rfl rfl (by decide) rfl
  exact absurd hlen (by decide)

end FlowProfile
