import FlowProfile.Proofs.Exec.Faults
import FlowProfile.Proofs.Exec.Records
import FlowProfile.Proofs.Instrument.Arrays

/-!
# Runs of instrumented programs are safe

Whatever the strategies are, all that a run of the instrumented program counts or measures has its
slot, of the right type and within the bounds. No count is above the number of steps, and every
handler can write its record. Therefore a run that fails has a message.
-/

namespace FlowProfile

/-! ### Safe configurations -/

/-- The slots that the instruction changes are there, with the type that it needs. -/
def Counters.Has (cs : Counters) : Inst → Prop
  | .increment name slot => ∃ n, cs.u64Slot name slot = .ok n
  | .accumulate name slot _ _ => slot + 1 < 2 ^ 32 ∧
      (∃ n, cs.u64Slot name slot = .ok n) ∧ ∃ n, cs.u64Slot name (slot + 1) = .ok n
  | .store name slot _ => ∃ n, cs.i32Slot name slot = .ok n
  | .addWeight name slot _ | .timerStop name slot => ∃ x, cs.f64Slot name slot = .ok x
  | _ => True

/-- What holds of a run of the program after so many steps. -/
structure Config.IsSafe {σ : Type} (q : Program) (steps : ℕ) (c : Config σ) : Prop where
  frames : ∀ frame ∈ c.frames, frame.IsIn q
  slots : ∀ inst, c.frame.rest.head? = some inst → c.machine.counters.Has inst
  counts : ∀ inst name slot, q.HasInst inst → inst.counts? = some (name, slot) →
    c.machine.counters.count name slot ≤ steps
  handlers : ∀ handler ∈ c.machine.handlers, ∀ name ∈ handler.2,
    ∃ array, c.machine.counters.get? name = some array

/-- The run has no fault, and every configuration that it comes to is safe. -/
structure Program.RunsSafely {σ : Type} (q : Program) (host : Host σ) (state : σ) (limit : ℕ)
    (args : List String) : Prop where
  faultless : (q.run host state limit args).2.Faultless
  passes : ∀ c vs n d, q.start state = .ok c → Config.Passes q host c vs n d → n ≤ limit →
    d.IsSafe q n

/-! ### Guarded programs -/

/-- All that counts in the program was added by the strategies, and their arrays are declared. -/
structure Program.Guarded (used : Strategy → Prop) (q : Program) : Prop where
  valid : q.IsValid
  counted : q.CountedBy (fun _ => True) used
  declares : ∀ s, used s → ∀ pass ∈ s.passes, ∃ len < 2 ^ 32, q.Declares (pass.global len)

theorem Program.Guarded.exists_len {used : Strategy → Prop} {q : Program} (h : q.Guarded used)
    (s : Strategy) (hs : used s) (pass : Pass) (hpass : pass ∈ s.passes) :
    ∃ len, q.Declares (pass.global len) :=
  have ⟨len, _, hdecl⟩ := h.declares s hs pass hpass
  ⟨len, hdecl⟩

namespace Machine.Ready

variable {σ : Type} {used : Strategy → Prop} {q : Program} {m : Machine σ} {steps : ℕ}
  {inst : Inst}

theorem has (hready : m.Ready used q steps) (h : q.Guarded used) (hinst : q.HasInst inst) :
    m.counters.Has inst := by
  rcases h.counted.insts inst hinst with ha | hown
  · cases ha with
    | @pass s pass len inst hs hpass hdecl ha =>
        have hshape := hready.shape_pass hdecl
        obtain ⟨len', hlt, hdecl'⟩ := h.declares s hs pass hpass
        obtain rfl : len = len' := congrArg Global.len (hdecl.unique hdecl' rfl)
        cases ha with
        | increment hslot => exact Counters.exists_u64Slot hshape hslot
        | store hslot _ => exact Counters.exists_i32Slot hshape hslot
        | accumulate hslot _ _ =>
            exact ⟨by omega, Counters.exists_u64Slot hshape (by omega),
              Counters.exists_u64Slot hshape hslot⟩
        | timerStart => trivial
        | timerStop hslot => exact Counters.exists_f64Slot hshape hslot
        | addWeight hslot _ => exact Counters.exists_f64Slot hshape hslot
    | registration => trivial
  · cases inst with
    | op opcode dest operands => trivial
    | call callee args => trivial
    | _ => cases hown

theorem count_le (hready : m.Ready used q steps) (h : q.Guarded used) (hinst : q.HasInst inst)
    {name : String} {slot : ℕ} (hcounts : inst.counts? = some (name, slot)) :
    m.counters.count name slot ≤ steps := by
  refine hready.count name slot ?_
  rcases h.counted.insts inst hinst with ha | hown
  · cases ha with
    | @pass s pass len inst hs hpass hdecl ha =>
        cases ha <;> cases hcounts
        · exact ⟨⟨_, len, hdecl, rfl⟩, fun hcomm => absurd hcomm (Strategy.not_comm_of_edges hpass)⟩
        · exact ⟨⟨_, len, hdecl, rfl⟩, fun _ => Nat.dvd_mul_right 2 _⟩
    | registration => cases hcounts
  · cases inst with
    | op opcode dest operands => cases hcounts
    | call callee args => cases hcounts
    | _ => cases hown

theorem exists_array (hready : m.Ready used q steps) (h : q.Guarded used)
    {handler : Strategy × List String} (hmem : handler ∈ m.handlers) {name : String}
    (hname : name ∈ handler.2) : ∃ array, m.counters.get? name = some array := by
  obtain ⟨s, hs, rfl⟩ := hready.handlers handler hmem
  obtain ⟨pass, hpass, rfl⟩ := List.mem_map.mp hname
  obtain ⟨len, hdecl⟩ := h.exists_len s hs pass hpass
  obtain ⟨array, harray, -⟩ := Option.map_eq_some_iff.mp (hready.shape_pass hdecl)
  exact ⟨array, harray⟩

end Machine.Ready

/-! ### Runs -/

section

variable {σ : Type} {used : Strategy → Prop} {q : Program} {host : Host σ}

theorem Config.Passes.isSafe (h : q.Guarded used) {state : σ} {function : ℕ} {block : Block}
    (hb : q.block? function 0 = some block) {vs : List Visit} {n : ℕ} {d : Config σ}
    (hpasses : Passes q host (.entering q state function block) vs n d) : d.IsSafe q n := by
  have hready := hpasses.ready h.counted hb
  have hframes := (hpasses.coherent hb).frames
  have hin := hframes d.frame List.mem_cons_self
  exact {
    frames := hframes
    slots := fun _ hinst => hready.has h (Frame.hasInst hin hinst)
    counts := fun _ _ _ hinst hcounts => hready.count_le h hinst hcounts
    handlers := fun _ hmem _ hname => hready.exists_array h hmem hname }

/-- A step of a run that has room for it has no fault. -/
theorem Config.Passes.step_ne_fault (h : q.Guarded used) (hhost : host.Faultless) {state : σ}
    {function : ℕ} {block : Block} (hb : q.block? function 0 = some block) {vs : List Visit} {n : ℕ}
    {d : Config σ} (hpasses : Passes q host (.entering q state function block) vs n d)
    (hn : n + 1 < 2 ^ 64) (m : Machine σ) (fault : Fault) :
    d.step q host ≠ .failed m (.fault fault) := by
  have hsafe := hpasses.isSafe h hb
  have hin := hsafe.frames d.frame List.mem_cons_self
  refine Config.step_ne_fault h.valid hhost hin (fun inst hinst name slot hcounts => ?_) m fault
  have hle := hsafe.counts inst name slot (Frame.hasInst hin hinst) hcounts
  omega

theorem Program.Guarded.run_faultless (h : q.Guarded used) (hhost : host.Faultless) (state : σ)
    {limit : ℕ} (hlimit : limit < 2 ^ 64) (args : List String) :
    (q.run host state limit args).2.Faultless := by
  cases hstart : q.start state with
  | error failure =>
      have hfailure := q.start_faultless state
      rw [hstart] at hfailure
      simp only [Program.run, hstart]
      exact hfailure.error
  | ok c =>
      obtain ⟨-, main, block, -, hb, rfl⟩ := Program.start_eq_ok_iff.mp hstart
      have hrun : (Config.run q host limit limit (.entering q state main block)).2.Faultless :=
        Config.run_faultless fun vs n d hp hn => hp.step_ne_fault h hhost hb (by omega)
      rcases hc : Config.run q host limit limit (.entering q state main block) with
        ⟨m, failure | ⟨⟩⟩
      · rw [hc] at hrun
        simp only [Program.run, hstart, hc]
        exact hrun.error
      · obtain ⟨n, d, -, hp, hd⟩ := Config.exists_passes_of_run_eq_ok hc
        obtain ⟨rfl, -, -, -⟩ := Config.step_eq_finished_iff.mp hd
        obtain ⟨records, hrecords⟩ := (hp.ready h.counted hb).exists_records h.exists_len args
        simp only [Program.run, hstart, hc, hrecords]
        exact .ok records

theorem Program.Guarded.runsSafely (h : q.Guarded used) (hhost : host.Faultless) (state : σ)
    {limit : ℕ} (hlimit : limit < 2 ^ 64) (args : List String) :
    q.RunsSafely host state limit args where
  faultless := h.run_faultless hhost state hlimit args
  passes c vs n d hstart hp _ := by
    obtain ⟨-, main, block, -, hb, rfl⟩ := Program.start_eq_ok_iff.mp hstart
    exact hp.isSafe h hb

end

/-! ### Instrumented programs -/

theorem Program.Grows.guarded {used : Strategy → Prop} {p q : Program}
    (hp : p.IsUninstrumented) (hvalid : p.IsValid) (h : p.Grows (fun _ => True) used q)
    (hdeclares : ∀ s, used s → ∀ pass ∈ s.passes, ∃ len < 2 ^ 32, q.Declares (pass.global len)) :
    q.Guarded used where
  valid := h.edited.isValid hvalid
  counted := {
    insts := fun _ hinst => (h.edited.hasInst hinst).imp_right fun hown =>
      Inst.isOwn_of_isOriginal (hp.1.hasInst hown)
    registers := h.registers_of hp.2
      fun _ hinst => Inst.registered?_of_isOriginal (hp.1.hasInst hinst) }
  declares := hdeclares

theorem Program.IsUninstrumented.guarded {p : Program} (hp : p.IsUninstrumented)
    (hvalid : p.IsValid) : p.Guarded fun _ => False :=
  (Grows.refl p).guarded hp hvalid fun _ hs => hs.elim

namespace Instrumenter

variable {ins : Instrumenter} {p q : Program}

theorem applyAll_guarded {main : ℕ} (hp : p.IsUninstrumented) (hvalid : p.IsValid)
    (h : ins.applyAll p.blockCounts main p = .ok q) : q.Guarded (· ∈ ins.strategies) := by
  have hblocks : p.blockCounts.length = p.functions.length := List.length_map ..
  obtain ⟨hgrows, -, hall⟩ := strategies_grow hblocks p.copies_true (fun _ _ => trivial) h
  refine hgrows.guarded hp hvalid fun s hs pass hpass => ?_
  obtain ⟨hnone, len, hdecl, -⟩ := hall s hs pass hpass
  exact ⟨len, applyAll_lt hblocks h hnone hdecl, hdecl⟩

/-- Neither the plain program nor the instrumented one ever has a fault, whatever the process, its
arguments and its step limit are, and all that they come to is safe. -/
theorem instrument_runsSafely (hp : p.IsUninstrumented) (h : ins.instrument p = .ok q) {limit : ℕ}
    (hlimit : limit < 2 ^ 64 - 1) (state : MpiProcess) (args : List String) :
    p.RunsSafely MpiProcess.host state limit args ∧
      q.RunsSafely MpiProcess.host state limit args := by
  have hfit : limit < 2 ^ 64 := by omega
  obtain ⟨hvalid, hgrown⟩ : p.IsValid ∧ ∃ used, q.Guarded used := by
    cases hmain : p.functionIndex? ins.entry with
    | none =>
        simp only [instrument, hmain, Outcome.bind_eq_ok_iff, Outcome.pure_eq_ok_iff] at h
        obtain ⟨_, hvalid, rfl⟩ := h
        have hvalid := (Program.validate_eq_ok_iff p).mp hvalid
        exact ⟨hvalid, _, hp.guarded hvalid⟩
    | some main =>
        obtain ⟨hvalid, -, -, happly⟩ := instrument_eq_ok hmain h
        exact ⟨hvalid, _, applyAll_guarded hp hvalid happly⟩
  obtain ⟨used, hq⟩ := hgrown
  exact ⟨(hp.guarded hvalid).runsSafely MpiProcess.host_faultless state hfit args,
    hq.runsSafely MpiProcess.host_faultless state hfit args⟩

end Instrumenter

def sendInLoopCounted : Program where
  functions := [
    ⟨"main", [
      ⟨"entry", [Strategy.comm.registration, Strategy.edge.registration,
        .increment "__commprof_edge_counters" 0, .increment "__commprof_edge_counters" 1], .br 1⟩,
      ⟨"body", [.call (.direct "MPI_Send") [.const 0, .const 4, .const 8],
        .accumulate "__commprof_comm_counters" 0 (.const 4) (.const 8),
        .op "add" (some "i") [.var "i", .const 1],
        .op "lt" (some "again") [.var "i", .const 3]], .condBr (.var "again") 3 2⟩,
      ⟨"exit", [.increment "__commprof_edge_counters" 3], .ret⟩,
      ⟨"body.body_crit_edge", [.increment "__commprof_edge_counters" 2], .br 1⟩]⟩]
  globals := [⟨"__commprof_edge_counters", .u64, 4, 0⟩, ⟨"__commprof_comm_counters", .u64, 2, 0⟩]

theorem runsSafely_sendInLoopCounted :
    (sendInLoopCounted.run MpiProcess.host (.start 0 1 .zero) 100 []).2 =
        .ok [.arguments [], .comm [⟨3, 96⟩], .edges [1, 1, 2, 1] []] ∧
      sendInLoop.RunsSafely MpiProcess.host (.start 0 1 .zero) 100 [] ∧
      sendInLoopCounted.RunsSafely MpiProcess.host (.start 0 1 .zero) 100 [] :=
  have hins : Instrumenter.instrument ⟨[.edge, .comm], "main", []⟩ sendInLoop =
      .ok sendInLoopCounted := rfl
  ⟨rfl, Instrumenter.instrument_runsSafely (by decide) hins (by decide) (.start 0 1 .zero) []⟩

end FlowProfile
