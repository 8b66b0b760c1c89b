import FlowProfile.Proofs.Exec.RankQueries
import FlowProfile.Proofs.Record.Rounds

/-!
# The ranks in the records of a process

Every strategy that keeps the rank writes that of the process if the run came to the first query of
the program, and otherwise that it is unknown, whatever other queries the run came to.
-/

namespace FlowProfile

/-! ### Queries -/

/-- Is it a direct call that the library answers with the rank? -/
def Inst.queriesRank : Inst → Bool
  | .call (.direct name) _ => (Comm.Operation.lookup? name).any (·.isRankQuery)
  | _ => false

def CallSite.queriesRank (c : CallSite) : Bool := (Inst.call c.callee c.args).queriesRank

/-- The place of the call in an edited program, with what is left behind it. -/
def CallSite.calling (c : CallSite) (rest : List Inst) : Frame :=
  ⟨c.function, c.block, .call c.callee c.args :: rest⟩

namespace Program

variable {splitting : Prop} {added : Inst → Prop} {p q : Program} {c : CallSite}
  {rest rest' : List Inst}

/-- The first query, by function, by block, and by instruction. -/
def firstQuery? (p : Program) : Option CallSite := p.callSites.find? (·.queriesRank)

/-- In `q` there stands the call of `p`, with what is left behind it: without the added
instructions, that is what `p` has from the call on. -/
structure CallStands (p q : Program) (c : CallSite) (rest : List Inst) : Prop where
  stands : (c.calling rest).IsIn q
  own : (c.calling rest).rest.filter Inst.isOriginal = p.fromCall c

theorem fromCall_eq (hc : c ∈ p.callSites) :
    ∃ rest, p.fromCall c = .call c.callee c.args :: rest := by
  obtain ⟨block, hb, hcall⟩ := mem_callSites.mp hc
  refine ⟨block.insts.drop (c.inst + 1), ?_⟩
  rw [fromCall, hb, Option.map_some, Option.getD_some, drop_of_getElem? hcall]

theorem CallStands.of_filter (hc : c ∈ p.callSites) {call : Inst}
    (hin : Frame.IsIn q ⟨c.function, c.block, call :: rest⟩) (hcall : call.isOriginal = true)
    (hown : (call :: rest).filter Inst.isOriginal = p.fromCall c) :
    call = .call c.callee c.args ∧ p.CallStands q c rest := by
  obtain ⟨own, hfrom⟩ := fromCall_eq hc
  obtain rfl : call = .call c.callee c.args := by
    rw [hfrom, List.filter_cons_of_pos hcall] at hown
    exact (List.cons.inj hown).1
  exact ⟨rfl, hin, hown⟩

/-- The call stands at one place. -/
theorem CallStands.unique (hp : p.IsOriginal) (hc : c ∈ p.callSites) (h : p.CallStands q c rest)
    (h' : p.CallStands q c rest') : rest = rest' := by
  obtain ⟨⟨block, hb, hsuffix⟩, hown⟩ := h
  obtain ⟨⟨block', hb', hsuffix'⟩, hown'⟩ := h'
  obtain rfl : block = block' := Option.some.inj (hb.symm.trans hb')
  have hcall := hp.hasInst (hasInst_of_mem_callSites hc)
  have hcount : ((c.calling rest).rest).countP Inst.isOriginal =
      ((c.calling rest').rest).countP Inst.isOriginal := by
    rw [List.countP_eq_length_filter, List.countP_eq_length_filter, hown, hown']
  exact (List.cons.inj (eq_of_suffix_of_countP_eq hsuffix hsuffix' hcall hcall hcount)).2

theorem Edited.exists_callStands (hvalid : p.IsValid) (hp : p.IsOriginal)
    (hadd : ∀ inst, added inst → inst.isOriginal = false) (h : p.Edited splitting added q)
    (hc : p.rankQuery? = some c) : ∃ rest, p.CallStands q c rest := by
  have hrel := h.rel_rankQuery? hvalid (onlyRegisters_of_isOriginal hadd)
  rw [hc] at hrel
  generalize q.rankQuery? = found at hrel
  cases hrel with
  | @some _ d hcall =>
      obtain ⟨own, -, hb, -, hd, -⟩ := id hcall
      obtain ⟨block, before, call, after, hblock, hinsts, -, horiginal, hown⟩ :=
        hcall.callAt hp hadd hb
      rw [hd] at hblock
      refine ⟨after, (CallStands.of_filter (List.mem_of_find?_eq_some hc)
        ⟨block, hblock, hinsts ▸ List.suffix_append before _⟩ horiginal ?_).2⟩
      rw [hown, fromCall, hb]
      rfl

/-- What a process learns in a run: its rank if the run came to the first query, and otherwise
nothing. -/
def Learns {σ : Type} (p q : Program) (trace : List (Config σ)) (rank learnt : Int32) : Prop :=
  match p.firstQuery? with
  | none => learnt = unknownRank
  | some c => ∃ rest, p.CallStands q c rest ∧
    learnt = if trace.any (·.frame = c.calling rest) then rank else unknownRank

theorem Edited.exists_learns {σ : Type} (hvalid : p.IsValid) (hp : p.IsOriginal)
    (hfirst : p.rankQuery? = p.firstQuery?)
    (h : p.Edited splitting (·.isOriginal = false) q) (trace : List (Config σ)) (rank : Int32) :
    ∃ learnt, p.Learns q trace rank learnt := by
  unfold Learns
  cases hc : p.firstQuery? with
  | none => exact ⟨_, rfl⟩
  | some c =>
      obtain ⟨rest, hstands⟩ := h.exists_callStands hvalid hp (fun _ ha => ha) (hfirst.trans hc)
      exact ⟨_, rest, hstands, rfl⟩

theorem Learns.unique {σ : Type} {trace : List (Config σ)} {rank x y : Int32}
    (hp : p.IsOriginal) (hx : p.Learns q trace rank x) (hy : p.Learns q trace rank y) : x = y := by
  unfold Learns at hx hy
  cases hc : p.firstQuery? with
  | none =>
      simp only [hc] at hx hy
      exact hx.trans hy.symm
  | some c =>
      simp only [hc] at hx hy
      obtain ⟨rest, hstands, rfl⟩ := hx
      obtain ⟨rest', hstands', rfl⟩ := hy
      rw [hstands.unique hp (List.mem_of_find?_eq_some hc) hstands']

end Program

/-- A query is no function of the program, before and after it is edited. -/
theorem Program.Edited.asks_firstQuery? {splitting : Prop} {added : Inst → Prop} {p q : Program}
    {c : CallSite} (h : p.Edited splitting added q)
    (houtside : ∀ f ∈ p.functions, f.isDeclaration = false →
      Comm.Operation.lookup? f.name = none)
    (hc : p.firstQuery? = some c) : ∃ name, c.callee = .direct name ∧ q.Asks name := by
  have hquery : c.queriesRank = true := List.find?_some hc
  obtain ⟨_, _, _, callee, args⟩ := c
  cases callee with
  | indirect target => cases hquery
  | direct name =>
      obtain ⟨op, hop, hquery⟩ := (Option.any_eq_true _ _).mp hquery
      refine ⟨name, rfl, ⟨op, hop, hquery⟩, ?_⟩
      rw [h.definition?_eq]
      exact Program.definition?_eq_none_of_lookup? houtside hop

/-! ### The slot of the rank -/

theorem any_eq_seen {σ : Type} (frame : Frame) (trace : List (Config σ)) :
    trace.any (·.frame = frame) = !(seen frame trace).isEmpty := by
  induction trace with
  | nil => rfl
  | cons c trace ih =>
      by_cases h : c.frame = frame <;> simp_all [seen]

namespace Program

variable {p q : Program} {c : CallSite} {value : Operand} {state : MpiProcess} {limit : ℕ}
  {args : List String} {m : Machine MpiProcess} {records : List Record} {counters name : String}
  {rest : List Inst}

theorem Declares.i32Slot_initial (h : p.Declares ((Pass.rank counters).global 1)) :
    (Counters.initial p).i32Slot counters 0 = .ok unknownRank :=
  Counters.i32Slot_eq_ok_iff.mpr ⟨_, h.get?_initial, rfl⟩

/-- The slot holds the last of what the value was whenever a run came behind the call, whatever the
host is. -/
theorem Stores.holdsLast_run {σ : Type} {host : Host σ} {state : σ} {m : Machine σ}
    (h : q.Stores counters c value (p.fromCall c)) (hc : c ∈ p.callSites)
    (hinit : (Counters.initial q).i32Slot counters 0 = .ok unknownRank)
    (hrun : q.run host state limit args = (m, .ok records)) :
    ∃ rest, p.CallStands q c rest ∧ m.HoldsLast counters value unknownRank
      (seen ⟨c.function, c.block, rest⟩ (q.trace host state limit)) := by
  obtain ⟨block, hb, call, between, after, hsuffix, hcall, hbetween, hown⟩ := h.place
  have hin : Frame.IsIn q ⟨c.function, c.block,
      call :: (between ++ .store counters 0 value :: after)⟩ := ⟨block, hb, hsuffix⟩
  obtain ⟨-, hstands⟩ := CallStands.of_filter hc hin hcall hown
  have hholds := Program.holdsLast_run h.once
    (hin.suffix ((List.suffix_append between _).trans (List.suffix_cons _ _))) hinit hrun
  rw [← seen_trace_behind hrun hin.tail hbetween] at hholds
  exact ⟨_, hstands, hholds⟩

/-- The slot at the end of a run, if the rank is stored behind the query. -/
theorem Stores.i32Slot_run (h : q.Stores counters c value (p.fromCall c)) (hc : c ∈ p.callSites)
    (hname : c.callee = .direct name) (hasks : q.Asks name) (hvalue : c.args[1]? = some value)
    (hinit : (Counters.initial q).i32Slot counters 0 = .ok unknownRank)
    (hrun : q.run MpiProcess.host state limit args = (m, .ok records)) :
    ∃ rest, p.CallStands q c rest ∧ m.counters.i32Slot counters 0 =
      .ok (if (q.trace MpiProcess.host state limit).any (·.frame = c.calling rest) then state.rank
        else unknownRank) := by
  obtain ⟨rest, hstands, stored, hstored, hslot⟩ := h.holdsLast_run hc hinit hrun
  have hin := hstands.stands
  -- whatever was stored is the rank
  have htold : ∀ vars ∈ seen ⟨c.function, c.block, rest⟩ (q.trace MpiProcess.host state limit),
      vars.get value = .ok state.rank.toInt64 := by
    intro vars hmem
    obtain ⟨d, hd, rfl⟩ := List.mem_map.mp hmem
    obtain ⟨hd, hframe⟩ := List.mem_filter.mp hd
    rw [CallSite.calling, hname] at hin
    obtain ⟨value', hvalue', hget⟩ := told_of_mem_trace hasks hin hd (by simpa using hframe)
    obtain rfl : value = value' := Option.some.inj (hvalue.symm.trans hvalue')
    exact hget
  rw [Outcome.mapM_eq_ok_map htold] at hstored
  obtain rfl := Except.ok.inj hstored
  refine ⟨_, hstands, ?_⟩
  rw [hslot, CallSite.calling, any_trace_behind hrun hin, any_eq_seen, List.getLast?_map]
  cases hseen : seen ⟨c.function, c.block, rest⟩ (q.trace MpiProcess.host state limit) with
  | nil => rfl
  | cons vars seen => simp [List.getLast?_cons]

/-- A run that returns has come to no query without an argument for the rank. -/
theorem any_trace_eq_false (hasks : q.Asks name) (hname : c.callee = .direct name)
    (hvalue : c.args[1]? = none) (hstands : p.CallStands q c rest)
    (hrun : q.run MpiProcess.host state limit args = (m, .ok records)) :
    (q.trace MpiProcess.host state limit).any (·.frame = c.calling rest) = false := by
  have hin := hstands.stands
  rw [CallSite.calling] at hin ⊢
  rw [any_trace_behind hrun hin, List.any_eq_false]
  intro d hd hframe
  rw [hname] at hin
  obtain ⟨value, hsome, -⟩ := told_of_mem_trace hasks hin hd (by simpa using hframe)
  rw [hvalue] at hsome
  cases hsome

end Program

/-! ### Records -/

/-- The ranks of a record, if it is of a kind that has them. -/
def Record.rankVector? : Record → Option (List Int32)
  | .edges _ [] => none
  | .edges _ values | .ranks values | .time _ values => some values
  | _ => none

/-- Does a pass of the strategy look for the rank? -/
def Strategy.keepsRank (s : Strategy) : Bool := s.passes.any (·.type = .i32)

namespace Counters

variable {cs : Counters} {rank : Int32} {s : Strategy} {record : Record}

theorem ranks_of_words {entryPoint : String} {passes : List Pass} {words : List UInt64}
    {ranks : List Int32}
    (h : ∀ pass ∈ passes, ∃ len, cs.shape pass.counters = some (pass.type, len))
    (hrank : ∀ pass ∈ passes, pass.type = .i32 → cs.get? pass.counters = some (.i32 #[rank]))
    (hwords : cs.words entryPoint (passes.map Pass.counters) = .ok (words, ranks)) :
    ranks = List.replicate (passes.countP (·.type = .i32)) rank := by
  induction passes generalizing words ranks with
  | nil =>
      cases hwords
      rfl
  | cons pass passes ih =>
      rw [List.forall_mem_cons] at h hrank
      obtain ⟨len, hshape⟩ := h.1
      obtain ⟨array, harray, hshape⟩ := Option.map_eq_some_iff.mp hshape
      have htype : array.shape.1 = pass.type := congrArg Prod.fst hshape
      simp only [List.map_cons, Counters.words, harray, Outcome.bind_eq_ok_iff] at hwords
      obtain ⟨⟨words', ranks'⟩, hwords', hwords⟩ := hwords
      have hrest := ih h.2 hrank.2 hwords'
      cases array with
      | i32 slots =>
          have hone := hrank.1 htype.symm
          rw [harray] at hone
          cases hone
          cases hwords
          rw [List.countP_cons_of_pos (by simp [← htype, CounterArray.shape]), hrest]
          rfl
      | u64 slots | f64 slots =>
          cases hwords
          rw [List.countP_cons_of_neg (by simp [← htype, CounterArray.shape]), hrest]

/-- The record of a strategy that keeps the rank has it alone, and other records have none. -/
theorem rankVector?_of_record
    (h : ∀ pass ∈ s.passes, ∃ len, cs.shape pass.counters = some (pass.type, len) ∧
      (pass.type = .i32 → len = 1))
    (hslot : ∀ counters, Pass.rank counters ∈ s.passes → cs.i32Slot counters 0 = .ok rank)
    (hrecord : cs.record s.handler = .ok record) :
    record.rankVector? = if s.keepsRank then some [rank] else none := by
  obtain ⟨words, ranks, hwords⟩ := exists_words s.entryPoint fun pass hpass =>
    (h pass hpass).imp fun _ hshape => hshape.1
  have hranks : ranks = List.replicate (s.passes.countP (·.type = .i32)) rank := by
    refine ranks_of_words (fun pass hpass => (h pass hpass).imp fun _ hshape => hshape.1)
      (fun pass hpass htype => ?_) hwords
    cases pass with
    | rank counters =>
        obtain ⟨len, hshape, hlen⟩ := h _ hpass
        obtain ⟨slots, hget, hzero⟩ := i32Slot_eq_ok_iff.mp (hslot counters hpass)
        obtain ⟨array, harray, hshape⟩ := Option.map_eq_some_iff.mp hshape
        obtain rfl := Option.some.inj (hget.symm.trans harray)
        have hsize : slots.size = 1 := (congrArg Prod.snd hshape).trans (hlen rfl)
        obtain ⟨x, rfl⟩ := Array.size_eq_one_iff.mp hsize
        obtain rfl := Option.some.inj hzero
        exact hget
    | _ => cases htype
  rw [record_handler hwords] at hrecord
  obtain rfl := Except.ok.inj hrecord
  rw [hranks]
  cases s <;> rfl

end Counters

/-- Each round of registrations has the same handlers. -/
theorem Program.Registers.countP_handlers_eq {σ : Type} {q : Program} {host : Host σ} {state : σ}
    {limit : ℕ} {args : List String} {m : Machine σ} {records : List Record} {main : ℕ}
    {ss : List Strategy} {used : Strategy → Prop} (h : q.Registers used)
    (hq : q.RegistersAt main ss) (hrun : q.run host state limit args = (m, .ok records))
    (counted : Strategy → Bool) :
    m.handlers.countP (counted ·.1) =
      activations (q.visits host state limit) main * ss.countP counted := by
  rw [h.handlers_eq hq hrun, List.countP_flatten, List.map_replicate, List.sum_replicate,
    List.countP_map, smul_eq_mul]
  rfl

/-! ### All strategies -/

namespace Instrumenter

variable {ins : Instrumenter} {p q : Program} {main limit : ℕ} {args : List String}
  {state : MpiProcess} {m : Machine MpiProcess} {records : List Record} {s : Strategy}
  {counters : String}

/-- Whatever other strategies are used, the slot of the rank holds what the process learns. -/
theorem applyAll_learns (hvalid : p.IsValid) (hp : p.IsOriginal)
    (hfirst : p.rankQuery? = p.firstQuery?)
    (hasks : ∀ c, p.firstQuery? = some c → ∃ name, c.callee = .direct name ∧ q.Asks name)
    (hedit : p.Edited True (·.isOriginal = false) q)
    (hdecl : q.Declares ((Pass.rank counters).global 1)) (hs : s ∈ ins.strategies)
    (hrank : Pass.rank counters ∈ s.passes) (h : ins.applyAll p.blockCounts main p = .ok q)
    (hrun : q.run MpiProcess.host state limit args = (m, .ok records)) :
    ∃ learnt, m.counters.i32Slot counters 0 = .ok learnt ∧
      p.Learns q (q.trace MpiProcess.host state limit) state.rank learnt := by
  have hnever : (∀ c, p.rankQuery? = some c → c.args[1]? = none) →
      m.counters.i32Slot counters 0 = .ok unknownRank := fun hnone =>
    ((applyAll_never hvalid hp hs hrank hnone h).i32Slot_run hrun 0).trans hdecl.i32Slot_initial
  unfold Program.Learns
  cases hc : p.firstQuery? with
  | none => exact ⟨unknownRank, hnever (by simp [hfirst, hc]), rfl⟩
  | some c =>
      obtain ⟨name, hname, hasks⟩ := hasks c hc
      have hmem : c ∈ p.callSites := List.mem_of_find?_eq_some hc
      cases hvalue : c.args[1]? with
      | none =>
          obtain ⟨rest, hstands⟩ :=
            hedit.exists_callStands hvalid hp (fun _ ha => ha) (hfirst.trans hc)
          have hnone : ∀ d, p.rankQuery? = some d → d.args[1]? = none := by
            intro d hd
            obtain rfl := Option.some.inj (hc.symm.trans (hfirst.symm.trans hd))
            exact hvalue
          refine ⟨unknownRank, hnever hnone, rest, hstands, ?_⟩
          simp [Program.any_trace_eq_false hasks hname hvalue hstands hrun]
      | some value =>
          have hstores := applyAll_stores hvalid hp hs hrank (hfirst.trans hc) hvalue h
          obtain ⟨rest, hstands, hslot⟩ :=
            hstores.i32Slot_run hmem hname hasks hvalue hdecl.i32Slot_initial hrun
          exact ⟨_, hslot, rest, hstands, rfl⟩

/-- If all slots of a rank hold the same one, all vectors of ranks that are written have it
alone. -/
theorem rankVectors_run {σ : Type} {host : Host σ} {state : σ} {m : Machine σ} {rank : Int32}
    {blocks : List ℕ} (hblocks : blocks.length = p.functions.length)
    (h : ins.applyAll blocks main p = .ok q) (hregisters : q.Registers (· ∈ ins.strategies))
    (hrun : q.run host state limit args = (m, .ok records))
    (hslot : ∀ s ∈ ins.strategies, ∀ counters, Pass.rank counters ∈ s.passes →
      m.counters.i32Slot counters 0 = .ok rank) :
    records.filterMap Record.rankVector? =
      List.replicate (m.handlers.countP (·.1.keepsRank)) [rank] := by
  obtain ⟨-, -, -, hwritten⟩ := Program.run_eq_ok_iff.mp hrun
  refine Machine.filterMap_records Record.rankVector? Strategy.keepsRank (fun _ => rfl)
    (fun handler hmem record hrecord => ?_) hwritten
  obtain ⟨s, hs, rfl⟩ := hregisters.handlers_run hrun handler hmem
  refine Counters.rankVector?_of_record (fun pass hpass => ?_) (hslot s hs) hrecord
  rw [Program.shape_run hrun]
  exact applyAll_shape hblocks h hs hpass

/-- A run in which the entry function is entered so often writes so many vectors of ranks for each
strategy that keeps the rank. Each of them has one rank, which is that of the process if the run
came to the first query of the program, and otherwise unknown. The passes look for that query by its
name alone. -/
theorem ranks_learnt (hp : p.IsPlain)
    (houtside : ∀ f ∈ p.functions, f.isDeclaration = false →
      Comm.Operation.lookup? f.name = none)
    (hfirst : p.rankQuery? = p.firstQuery?) (hins : ins.instrument p = .ok q)
    (hmain : p.functionIndex? ins.entry = some main) (state : MpiProcess) (limit : ℕ)
    (args : List String)
    (hrun : (q.run MpiProcess.host state limit args).2 = .ok records) :
    ∃ learnt, p.Learns q (q.trace MpiProcess.host state limit) state.rank learnt ∧
      records.filterMap Record.rankVector? =
        List.replicate (activations (q.visits MpiProcess.host state limit) main *
          ins.strategies.countP Strategy.keepsRank) [learnt] := by
  obtain ⟨m, hm⟩ : ∃ m, q.run MpiProcess.host state limit args = (m, .ok records) :=
    ⟨_, Prod.ext rfl hrun⟩
  obtain ⟨hvalid, -, -, happly⟩ := instrument_eq_ok hmain hins
  have hblocks : p.blockCounts.length = p.functions.length := List.length_map ..
  obtain ⟨hgrows, -, hall⟩ := strategies_grow hblocks p.copies_true (fun _ _ => trivial) happly
  have hedit : p.Edited True (·.isOriginal = false) q :=
    hgrows.edited.mono (fun _ => trivial) fun _ ha => ha.isOriginal_eq_false
  have hasks : ∀ c, p.firstQuery? = some c → ∃ name, c.callee = .direct name ∧ q.Asks name :=
    fun c hc => hedit.asks_firstQuery? houtside hc
  obtain ⟨learnt, hlearnt⟩ := hedit.exists_learns hvalid hp.isOriginal hfirst
    (q.trace MpiProcess.host state limit) state.rank
  refine ⟨learnt, hlearnt, ?_⟩
  -- every slot of a rank holds what the process learns
  have hslot : ∀ s ∈ ins.strategies, ∀ counters, Pass.rank counters ∈ s.passes →
      m.counters.i32Slot counters 0 = .ok learnt := by
    intro s hs counters hrank
    obtain ⟨-, len, hdecl, hlen⟩ := hall s hs _ hrank
    obtain rfl := hlen.resolve_left id
    obtain ⟨learnt', hslot, hlearnt'⟩ :=
      applyAll_learns hvalid hp.isOriginal hfirst hasks hedit hdecl hs hrank happly hm
    rwa [hlearnt.unique hp.isOriginal hlearnt']
  -- and every handler writes what its slots hold
  have hregisters := hgrows.registers hp.isUninstrumented
  have hrounds := strategies_registersAt hblocks (hp.isOriginal.registersAt main) happly
  have hcount := hregisters.countP_handlers_eq hrounds hm Strategy.keepsRank
  rw [List.append_nil, List.countP_reverse] at hcount
  rw [← hcount]
  exact rankVectors_run hblocks happly hregisters hm hslot

end Instrumenter

/-- Either of two calls asks for the rank. -/
def asksApart (first : Operand) : Program where
  functions := [
    ⟨"main", [
      ⟨"entry", [], .condBr first 1 2⟩,
      ⟨"early", [.call (.direct "MPI_Comm_rank") [.const 0, .var "rank"]], .br 3⟩,
      ⟨"late", [.call (.direct "mpi_comm_rank_") [.const 0, .var "rank"]], .br 3⟩,
      ⟨"exit", [], .ret⟩]⟩]
  globals := []

theorem ranks_learnt_asksApart :
    ∃ q records, Instrumenter.instrument ⟨[.rank, .edgeRank], "main", []⟩ (asksApart (.const 1)) =
        .ok q ∧
      (q.run MpiProcess.host (.start 3 4 .zero) 100 []).2 = .ok records ∧
      records.filterMap Record.rankVector? = [[3], [3]] ∧
      (asksApart (.const 1)).Learns q (q.trace MpiProcess.host (.start 3 4 .zero) 100) 3 3 := by
  have hins : Instrumenter.instrument ⟨[.rank, .edgeRank], "main", []⟩ (asksApart (.const 1)) =
      .ok _ := rfl
  obtain ⟨learnt, hlearnt, hranks⟩ := Instrumenter.ranks_learnt (by decide) (by decide) (by decide)
    hins rfl (.start 3 4 .zero) 100 [] rfl
  have htwice : [[3], [3]] = [[learnt], [learnt]] := hranks
  obtain rfl : 3 = learnt := List.singleton_inj.mp (List.cons.inj htwice).1
  exact ⟨_, _, hins, rfl, rfl, hlearnt⟩

/-- A process that comes to a query need not record its rank: if it is not the first query of the
program, the rank stays unknown. -/
theorem ranks_not_received :
    ¬∀ (p q : Program) (ins : Instrumenter) (main : ℕ) (rank size : Int32) (limit : ℕ)
        (args : List String) (records : List Record),
      p.IsValid → p.IsPlain →
      (∀ f ∈ p.functions, f.isDeclaration = false → Comm.Operation.lookup? f.name = none) →
      (∃ s ∈ [Strategy.rank, .edgeRank, .time], s ∈ ins.strategies) →
      ins.instrument p = .ok q → p.functionIndex? ins.entry = some main → 0 ≤ rank →
      (q.run MpiProcess.host (.start rank size .zero) limit args).2 = .ok records →
      activations (q.visits MpiProcess.host (.start rank size .zero) limit) main = 1 →
      ∀ ranks ∈ records.filterMap Record.rankVector?,
        ranks = [if (q.trace MpiProcess.host (.start rank size .zero) limit).any
          (·.frame.rest.head?.any Inst.queriesRank) then rank else unknownRank] := by
  intro h
  have hranks := h (asksApart (.const 0)) _ ⟨[.rank], "main", []⟩ 0 3 4 100 [] _ (by decide)
    (by decide) (by decide) (by decide) rfl rfl (by decide) rfl rfl [-1] (by decide)
  exact absurd hranks (by decide)

end FlowProfile
