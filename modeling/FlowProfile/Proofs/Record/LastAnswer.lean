import FlowProfile.Proofs.Instrument.Repeated
import FlowProfile.Proofs.Record.Ranks

/-!
# What a query left behind

All arrays for the rank hold what the first query answered last, however many strategies keep the
rank, and whatever they insert behind that query. It makes no difference who answers: the host, or a
function of the program.
-/

namespace FlowProfile

namespace Program

variable {σ : Type} {splitting : Prop} {added : Inst → Prop} {p q : Program} {c : CallSite}
  {value : Operand}

/-- The first query, with its second argument, in which the answer is. -/
def rankAnswer? (p : Program) : Option (CallSite × Operand) :=
  p.rankQuery?.bind fun c => (c.args[1]?).map (c, ·)

theorem rankAnswer?_eq_some_iff :
    p.rankAnswer? = some (c, value) ↔ p.rankQuery? = some c ∧ c.args[1]? = some value := by
  simp only [rankAnswer?, Option.bind_eq_some_iff, Option.map_eq_some_iff, Prod.mk.injEq]
  constructor
  · rintro ⟨d, hd, value', hvalue, rfl, rfl⟩
    exact ⟨hd, hvalue⟩
  · rintro ⟨hc, hvalue⟩
    exact ⟨c, hc, value, hvalue, rfl, rfl⟩

theorem rankAnswer?_eq_none_iff :
    p.rankAnswer? = none ↔ ∀ c, p.rankQuery? = some c → c.args[1]? = none := by
  simp [rankAnswer?, Option.bind_eq_none_iff]

/-- The rank that the first query leaves behind: what its second argument was when the run came
behind it the last time. It is unknown if the run never came there, and without such a query or
argument. -/
def LastAnswer (p q : Program) (trace : List (Config σ)) (rank : Int32) : Prop :=
  match p.rankAnswer? with
  | none => rank = unknownRank
  | some (c, value) => ∃ rest answers, p.CallStands q c rest ∧
    (seen ⟨c.function, c.block, rest⟩ trace).mapM (·.get value) = .ok answers ∧
    rank = answers.getLast?.elim unknownRank Int64.toInt32

theorem Edited.exists_lastAnswer (hvalid : p.IsValid) (hp : p.IsPlain)
    (h : p.Edited splitting (·.isOriginal = false) q) (trace : List (Config σ)) :
    ∃ rank, p.LastAnswer q trace rank := by
  unfold LastAnswer
  cases hanswer : p.rankAnswer? with
  | none => exact ⟨_, rfl⟩
  | some answer =>
      obtain ⟨c, value⟩ := answer
      obtain ⟨hc, hvalue⟩ := rankAnswer?_eq_some_iff.mp hanswer
      have hplain := hp.hasInst (hasInst_of_mem_callSites (List.mem_of_find?_eq_some hc))
      have hglobal : value.isGlobal = false :=
        hplain.2.1 value (List.mem_append_right _ (List.mem_of_getElem? hvalue))
      obtain ⟨rest, hstands⟩ := h.exists_callStands hvalid hp.isOriginal (fun _ ha => ha) hc
      have hget : ∀ vars ∈ seen ⟨c.function, c.block, rest⟩ trace, ∃ x, vars.get value = .ok x :=
        fun vars _ => Machine.exists_get vars hglobal
      obtain ⟨answers, hanswers⟩ := Outcome.exists_mapM hget
      exact ⟨_, rest, answers, hstands, hanswers, rfl⟩

theorem LastAnswer.unique {trace : List (Config σ)} {x y : Int32} (hp : p.IsOriginal)
    (hx : p.LastAnswer q trace x) (hy : p.LastAnswer q trace y) : x = y := by
  unfold LastAnswer at hx hy
  cases hanswer : p.rankAnswer? with
  | none =>
      simp only [hanswer] at hx hy
      exact hx.trans hy.symm
  | some answer =>
      simp only [hanswer] at hx hy
      obtain ⟨rest, answers, hstands, hanswers, rfl⟩ := hx
      obtain ⟨rest', answers', hstands', hanswers', rfl⟩ := hy
      obtain ⟨hc, -⟩ := rankAnswer?_eq_some_iff.mp hanswer
      obtain rfl := hstands.unique hp (List.mem_of_find?_eq_some hc) hstands'
      rw [Except.ok.inj (hanswers.symm.trans hanswers')]

end Program

/-- An array of one slot is that slot. -/
theorem Counters.get?_of_i32Slot {cs : Counters} {name : String} {n : Int32}
    (hshape : cs.shape name = some (.i32, 1)) (h : cs.i32Slot name 0 = .ok n) :
    cs.get? name = some (.i32 #[n]) := by
  obtain ⟨slots, hget, hzero⟩ := i32Slot_eq_ok_iff.mp h
  obtain ⟨array, harray, hshape⟩ := Option.map_eq_some_iff.mp hshape
  obtain rfl := Option.some.inj (hget.symm.trans harray)
  obtain ⟨x, rfl⟩ := Array.size_eq_one_iff.mp (congrArg Prod.snd hshape)
  obtain rfl := Option.some.inj hzero
  exact hget

namespace Instrumenter

variable {σ : Type} {ins : Instrumenter} {p q : Program} {main limit : ℕ} {args : List String}
  {host : Host σ} {state : σ} {m : Machine σ} {records : List Record} {s : Strategy}
  {counters : String}

/-- Whatever other strategies are used, the slot of the rank holds the last answer. -/
theorem applyAll_lastAnswer (hvalid : p.IsValid) (hp : p.IsOriginal)
    (hdecl : q.Declares ((Pass.rank counters).global 1)) (hs : s ∈ ins.strategies)
    (hrank : Pass.rank counters ∈ s.passes) (h : ins.applyAll p.blockCounts main p = .ok q)
    (hrun : q.run host state limit args = (m, .ok records)) :
    ∃ rank, m.counters.i32Slot counters 0 = .ok rank ∧
      p.LastAnswer q (q.trace host state limit) rank := by
  unfold Program.LastAnswer
  cases hanswer : p.rankAnswer? with
  | none =>
      have hnever := applyAll_never hvalid hp hs hrank
        (Program.rankAnswer?_eq_none_iff.mp hanswer) h
      exact ⟨unknownRank, (hnever.i32Slot_run hrun 0).trans hdecl.i32Slot_initial, rfl⟩
  | some answer =>
      obtain ⟨c, value⟩ := answer
      obtain ⟨hc, hvalue⟩ := Program.rankAnswer?_eq_some_iff.mp hanswer
      have hstores := applyAll_stores hvalid hp hs hrank hc hvalue h
      obtain ⟨rest, hstands, answers, hanswers, hslot⟩ := hstores.holdsLast_run
        (List.mem_of_find?_eq_some hc) hdecl.i32Slot_initial hrun
      exact ⟨_, hslot, rest, answers, hstands, hanswers, rfl⟩

/-- All arrays for the rank, and all vectors of ranks that a process writes, have one rank, which is
the last answer to the first query of the program. -/
theorem ranks_lastAnswer (hp : p.IsPlain) (hins : ins.instrument p = .ok q) (host : Host σ)
    (state : σ) (limit : ℕ) (args : List String)
    (hrun : q.run host state limit args = (m, .ok records)) :
    ∃ rank, p.LastAnswer q (q.trace host state limit) rank ∧
      ((p.functionIndex? ins.entry).isSome → ∀ s ∈ ins.strategies, ∀ counters,
        .rank counters ∈ s.passes → m.counters.get? counters = some (.i32 #[rank])) ∧
      ∀ ranks ∈ records.filterMap Record.rankVector?, ranks = [rank] := by
  cases hmain : p.functionIndex? ins.entry with
  | none =>
      have hvalid := (instrument_edited hins).1
      rw [instrument_of_functionIndex?_eq_none hvalid hmain] at hins
      obtain rfl := Except.ok.inj hins
      have hsame : p.Grows (fun _ => True) (· ∈ ([] : List Strategy)) p := .refl p
      have hedit : p.Edited True (·.isOriginal = false) p := .refl p
      obtain ⟨rank, hrank⟩ := hedit.exists_lastAnswer hvalid hp (p.trace host state limit)
      have happly : applyAll ⟨[], ins.entry, ins.weights⟩ p.blockCounts 0 p = .ok p := rfl
      refine ⟨rank, hrank, nofun, fun ranks hranks => ?_⟩
      have hregisters := hsame.registers hp.isUninstrumented
      rw [rankVectors_run (List.length_map ..) happly hregisters hrun nofun] at hranks
      exact (List.mem_replicate.mp hranks).2
  | some main =>
      obtain ⟨hvalid, -, -, happly⟩ := instrument_eq_ok hmain hins
      have hblocks : p.blockCounts.length = p.functions.length := List.length_map ..
      obtain ⟨hgrows, -, hall⟩ := strategies_grow hblocks p.copies_true (fun _ _ => trivial) happly
      have hedit : p.Edited True (·.isOriginal = false) q :=
        hgrows.edited.mono (fun _ => trivial) fun _ ha => ha.isOriginal_eq_false
      obtain ⟨rank, hlast⟩ := hedit.exists_lastAnswer hvalid hp (q.trace host state limit)
      have hslot : ∀ s ∈ ins.strategies, ∀ counters, Pass.rank counters ∈ s.passes →
          m.counters.i32Slot counters 0 = .ok rank := by
        intro s hs counters hrank
        obtain ⟨-, len, hdecl, hlen⟩ := hall s hs _ hrank
        obtain rfl := hlen.resolve_left id
        obtain ⟨rank', hslot, hlast'⟩ :=
          applyAll_lastAnswer hvalid hp.isOriginal hdecl hs hrank happly hrun
        rwa [hlast.unique hp.isOriginal hlast']
      refine ⟨rank, hlast, fun _ s hs counters hrank => ?_, fun ranks hranks => ?_⟩
      · obtain ⟨len, hshape, hlen⟩ := applyAll_shape hblocks happly hs hrank
        obtain rfl := hlen rfl
        rw [← Program.shape_run hrun] at hshape
        exact Counters.get?_of_i32Slot hshape (hslot s hs counters hrank)
      · have hregisters := hgrows.registers hp.isUninstrumented
        rw [rankVectors_run hblocks happly hregisters hrun hslot] at hranks
        exact (List.mem_replicate.mp hranks).2

end Instrumenter

/-- A function of the program answers, and not twice the same. -/
def answersItself : Program where
  functions := [
    ⟨"main", [
      ⟨"entry", [], .br 1⟩,
      ⟨"ask", [.call (.direct "MPI_Comm_rank") [.const 0, .var "rank"],
        .op "lt" (some "again") [.var "rank", .const 0x200000005]], .condBr (.var "again") 1 2⟩,
      ⟨"exit", [.op "mov" (some "rank") [.const 9]], .ret⟩]⟩,
    ⟨"MPI_Comm_rank", [
      ⟨"entry", [.op "add" (some "rank") [.var "rank", .const 0x100000003]], .ret⟩]⟩]
  globals := []

theorem ranks_lastAnswer_answersItself :
    ∃ q m records,
      Instrumenter.instrument ⟨[.edgeRank, .rank, .time], "main", []⟩ answersItself = .ok q ∧
      q.run MpiProcess.host (.start 3 4 .zero) 100 [] = (m, .ok records) ∧
      answersItself.LastAnswer q (q.trace MpiProcess.host (.start 3 4 .zero) 100) 6 ∧
      m.counters.get? "__commprof_time_ranks" = some (.i32 #[6]) ∧
      records.filterMap Record.rankVector? = [[6], [6], [6]] := by
  have hins : Instrumenter.instrument ⟨[.edgeRank, .rank, .time], "main", []⟩ answersItself =
      .ok _ := rfl
  obtain ⟨rank, hlast, harrays, -⟩ := Instrumenter.ranks_lastAnswer (by decide) hins
    MpiProcess.host (.start 3 4 .zero) 100 [] rfl
  have harray := harrays rfl .time (by decide) "__commprof_time_ranks" (by decide)
  obtain rfl : 6 = rank := by
    have hsix : some (CounterArray.i32 #[6]) = some (.i32 #[rank]) := harray
    simpa using hsix
  exact ⟨_, _, _, hins, rfl, hlast, harray, rfl⟩

end FlowProfile
