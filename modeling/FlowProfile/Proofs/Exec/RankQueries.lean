import FlowProfile.Proofs.Exec.LastStored
import FlowProfile.Proofs.Exec.Library

/-!
# What a process learns of its rank

The library answers a query with the rank of the process, which never changes. A run comes behind a
query from the query alone, and finds the rank there.
-/

namespace FlowProfile

/-! ### The library -/

namespace MpiProcess

theorem rank_call (process : MpiProcess) (callee : String) (args : List Operand)
    (vars : Variables) : (process.call callee args vars).1.rank = process.rank := by
  unfold call
  split <;> rfl

/-- A query that does not fail has written the rank through its second argument. -/
theorem vars_of_query {process : MpiProcess} {callee : String} {args : List Operand}
    {vars vars' : Variables} {op : Comm.Operation}
    (hop : Comm.Operation.lookup? callee = some op) (hquery : op.isRankQuery = true)
    (h : (process.call callee args vars).2 = .ok vars') :
    ∃ value, args[1]? = some value ∧ vars'.get value = .ok process.rank.toInt64 := by
  have hstem : op.stem = "comm_rank" := by simpa [Comm.Operation.isRankQuery] using hquery
  simp only [call, hop, answer?, hstem, if_true] at h
  cases hvalue : args[1]? with
  | none => simp [hvalue] at h
  | some value =>
      simp only [hvalue] at h
      refine ⟨value, rfl, ?_⟩
      cases value with
      | var name =>
          obtain rfl := Except.ok.inj h
          simp [Variables.get, Variables.read_write]
      | const n => simp [Variables.set] at h
      | global name => simp [Variables.set] at h

end MpiProcess

/-- The library answers a direct call of this name with the rank. -/
structure Program.Asks (p : Program) (name : String) : Prop where
  query : ∃ op, Comm.Operation.lookup? name = some op ∧ op.isRankQuery = true
  outside : p.definition? name = none

theorem Program.Asks.ne_enter {σ : Type} {p : Program} {host : Host σ} {name : String}
    (h : p.Asks name) (args : List Operand) (m m' : Machine σ) (depth callee : ℕ) :
    m.execute p host depth (.call (.direct name) args) ≠ .enter callee m' := by
  obtain ⟨op, hop, -⟩ := h.query
  exact Machine.library_ne_enter hop h.outside

/-- Behind a query there is the rank. -/
theorem Machine.vars_of_asks {p : Program} {m m' : Machine MpiProcess} {depth : ℕ} {name : String}
    {args : List Operand} (h : p.Asks name)
    (hexec : m.execute p MpiProcess.host depth (.call (.direct name) args) = .proceed m') :
    ∃ value, args[1]? = some value ∧ m'.vars.get value = .ok m.host.rank.toInt64 := by
  obtain ⟨op, hop, hquery⟩ := h.query
  rw [execute_library hop h.outside] at hexec
  rcases hcall : MpiProcess.host.call m.host name args m.vars with ⟨state, failure | vars⟩
  · simp [hcall] at hexec
  · simp only [hcall, Effect.proceed.injEq] at hexec
    subst hexec
    exact MpiProcess.vars_of_query hop hquery (congrArg Prod.snd hcall)

/-! ### Along a run -/

namespace Config

variable {p : Program} {function : ℕ} {b : BlockId} {name : String} {operands : List Operand}
  {rest : List Inst} {c d : Config MpiProcess} {v : Option Visit}

theorem Moves.rank_eq (h : Moves p MpiProcess.host c v d) :
    d.machine.host.rank = c.machine.host.rank := by
  have hrank : ∀ {m m' : Machine MpiProcess} {depth inst},
      (m.execute p MpiProcess.host depth inst).next? = some m' → m'.host.rank = m.host.rank := by
    intro m m' depth inst hnext
    rcases Machine.host_of_next? hnext with heq | heq | ⟨-, name, args, heq⟩
    · rw [heq]
    · rw [heq]
      rfl
    · rw [heq]
      exact m.host.rank_call name args m.vars
  cases h with
  | proceed he => exact hrank (by rw [he]; rfl)
  | enter he hf => exact hrank (by rw [he]; rfl)
  | follow he hf => rfl
  | back he => rfl

/-- What holds of a query at every moment of a run: no call comes back to the place behind it, and
who is there has learnt the rank. -/
structure Told (rank : Int32) (operands : List Operand) (behind : Frame) (c : Config MpiProcess) :
    Prop where
  own : c.machine.host.rank = rank
  callers : behind ∉ c.callers
  told : c.frame = behind → ∃ value, operands[1]? = some value ∧
    c.machine.vars.get value = .ok rank.toInt64

theorem Moves.told {rank : Int32} (hasks : p.Asks name)
    (hin : Frame.IsIn p ⟨function, b, .call (.direct name) operands :: rest⟩)
    (hframes : ∀ f ∈ c.frames, f.IsIn p) (h : Moves p MpiProcess.host c v d)
    (hc : c.Told rank operands ⟨function, b, rest⟩) : d.Told rank operands ⟨function, b, rest⟩ where
  own := h.rank_eq.trans hc.own
  callers := h.not_mem_callers hin (hasks.ne_enter operands) hframes hc.callers
  told hd := by
    have hexec := h.comes_behind hin hframes hc.callers hd
    exact hc.own ▸ Machine.vars_of_asks hasks hexec

theorem Passes.told {m : Machine MpiProcess} {main : ℕ} {entry : Block} (hasks : p.Asks name)
    (hin : Frame.IsIn p ⟨function, b, .call (.direct name) operands :: rest⟩)
    (hb : p.block? main 0 = some entry) {vs : List Visit} {n : ℕ}
    (h : Passes p MpiProcess.host ⟨m, ⟨main, 0, entry.insts⟩, []⟩ vs n d) :
    d.Told m.host.rank operands ⟨function, b, rest⟩ := by
  induction h with
  | start =>
      have hstart := hin.ne_start (Program.frameAt_eq_ok_iff.mpr ⟨entry, hb, rfl⟩)
      exact ⟨rfl, List.not_mem_nil, fun heq => absurd heq hstart⟩
  | move h hm ih => exact hm.told hasks hin (h.coherent hb).frames ih

end Config

namespace Program

variable {p q : Program} {state : MpiProcess} {limit : ℕ} {args : List String}
  {m : Machine MpiProcess} {records : List Record} {function : ℕ} {b : BlockId} {name : String}
  {operands : List Operand} {rest : List Inst}

/-- Whenever a run is behind a query it has learnt its rank. -/
theorem told_of_mem_trace (hasks : p.Asks name)
    (hin : Frame.IsIn p ⟨function, b, .call (.direct name) operands :: rest⟩)
    {c : Config MpiProcess} (hc : c ∈ p.trace MpiProcess.host state limit)
    (hframe : c.frame = ⟨function, b, rest⟩) :
    ∃ value, operands[1]? = some value ∧ c.machine.vars.get value = .ok state.rank.toInt64 := by
  obtain ⟨past, later, htrace⟩ := List.append_of_mem hc
  obtain ⟨main, entry, vs, hb, hp, -⟩ := exists_passes_of_trace htrace
  exact (hp.told hasks hin hb).told hframe

/-- A run that returns has come behind a query as often as to it. -/
theorem any_trace_behind {σ : Type} {host : Host σ} {state : σ} {m : Machine σ}
    (h : p.run host state limit args = (m, .ok records)) {inst : Inst}
    (hin : Frame.IsIn p ⟨function, b, inst :: rest⟩) :
    (p.trace host state limit).any (·.frame = ⟨function, b, inst :: rest⟩) =
      (p.trace host state limit).any (·.frame = ⟨function, b, rest⟩) := by
  have hcount := countP_trace_behind h hin
  rw [Bool.eq_iff_iff, List.any_eq_true, List.any_eq_true, ← List.countP_pos_iff,
    ← List.countP_pos_iff, hcount]

end Program

end FlowProfile
