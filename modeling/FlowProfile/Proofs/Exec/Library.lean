import FlowProfile.Proofs.Exec.Places
import FlowProfile.Proofs.Instrument.Passes

/-!
# Calls of the library

A recognised call that is no function of the program is answered by the host. Under a simulated
process nothing but the calls of the program itself changes the clock, and such a call lasts from
the step that makes it to the next one.
-/

namespace FlowProfile

/-! ### One instruction -/

namespace Machine

variable {σ : Type} {p : Program} {host : Host σ} {m m' : Machine σ} {inst : Inst} {depth : ℕ}
  {name : String} {op : Comm.Operation}

/-- A call asks the host if it is of the program itself, and enters none of its functions. -/
theorem host_of_call {callee : Callee} {args : List Operand}
    (h : (m.call p host depth callee args).next? = some m') :
    m'.host = m.host ∨ (Inst.call callee args).isOriginal = true ∧
      ∃ name args, m'.host = (host.call m.host name args m.vars).1 := by
  obtain ⟨name, hr, h⟩ := Effect.next?_of.mp h
  cases hs : Strategy.ofEntryPoint? name with
  | some s =>
      simp only [hs] at h
      obtain ⟨globals, -, h⟩ := Effect.next?_of.mp h
      obtain rfl := Option.some.inj h
      exact .inl rfl
  | none =>
      simp only [hs] at h
      cases hd : p.definition? name with
      | some function =>
          simp only [hd] at h
          split at h
          · obtain rfl := Option.some.inj h
            exact .inl rfl
          · cases h
      | none =>
          simp only [hd] at h
          rcases hc : host.call m.host name args m.vars with ⟨state, failure | vars⟩
          · simp [hc, Effect.next?] at h
          · simp only [hc] at h
            obtain rfl := Option.some.inj h
            exact .inr ⟨Inst.isOriginal_call hr hs args, name, args, by rw [hc]⟩

/-- The host changes only when it is asked for the time, or by the program itself. -/
theorem host_of_next? (h : (m.execute p host depth inst).next? = some m') :
    m'.host = m.host ∨ m'.host = (host.now m.host).1 ∨ inst.isOriginal = true ∧
      ∃ name args, m'.host = (host.call m.host name args m.vars).1 := by
  have hexec := executes_of_next? h
  cases inst with
  | call callee args => exact (host_of_call h).imp_right .inr
  | timerStart =>
      obtain rfl := Option.some.inj h
      exact .inr (.inl rfl)
  | timerStop counters slot =>
      simp only [execute, stopTimer] at h
      cases ht : m.timer with
      | none => simp [ht, Effect.next?] at h
      | some start =>
          simp only [ht, addTo] at h
          obtain ⟨_, -, h⟩ := Effect.next?_of.mp h
          obtain rfl := Option.some.inj h
          exact .inr (.inl rfl)
  -- no other instruction asks the host
  | _ =>
      cases hexec
      exact .inl rfl

/-- A recognised call of no function of the program is for the host. -/
theorem execute_library (hop : Comm.Operation.lookup? name = some op)
    (houtside : p.definition? name = none) (m : Machine σ) (depth : ℕ) (args : List Operand) :
    m.execute p host depth (.call (.direct name) args) =
      match host.call m.host name args m.vars with
      | (state, .ok vars) => .proceed { m with host := state, vars := vars }
      | (state, .error failure) => .fail { m with host := state } failure := by
  rcases hcall : host.call m.host name args m.vars with ⟨state, failure | vars⟩ <;>
    simp only [execute, call, Callee.resolve, Effect.of,
      Strategy.ofEntryPoint?_eq_none_of_lookup? hop, houtside, hcall]

theorem library_ne_enter (hop : Comm.Operation.lookup? name = some op)
    (houtside : p.definition? name = none) {args : List Operand} {callee : ℕ} :
    m.execute p host depth (.call (.direct name) args) ≠ .enter callee m' := by
  rw [execute_library hop houtside]
  rcases host.call m.host name args m.vars with ⟨state, failure | vars⟩ <;> simp

end Machine

/-- What was added to a program leaves the process as it is. -/
theorem Machine.host_of_added {p : Program} {m m' : Machine MpiProcess} {depth : ℕ} {inst : Inst}
    (hinst : inst.isOriginal = false)
    (h : m.execute p MpiProcess.host depth inst = .proceed m') : m'.host = m.host := by
  rcases host_of_next? (by rw [h]; rfl) with heq | heq | ⟨horiginal, -⟩
  · exact heq
  · exact heq
  · rw [hinst] at horiginal
    cases horiginal

/-! ### The clock -/

namespace Config

variable {p : Program} {c d : Config MpiProcess} {v : Option Visit}

/-- What the clock of a process shows. -/
def clock (c : Config MpiProcess) : Binary64 := c.machine.host.clock

/-- What it shows after the next step. -/
def clockAfter (p : Program) (c : Config MpiProcess) : Binary64 :=
  match c.step p MpiProcess.host with
  | .running d => d.clock
  | .finished m | .failed m _ => m.host.clock

/-- How long the next step lasts. -/
def lasts (p : Program) (c : Config MpiProcess) : Binary64 := c.clockAfter p - c.clock

theorem Moves.clockAfter_eq (h : Moves p MpiProcess.host c v d) : c.clockAfter p = d.clock := by
  rw [clockAfter, h.step_eq]

end Config

theorem zipWith_whenever {σ α β γ : Type} (f : α → β → γ) (what : Config σ → α)
    (what' : Config σ → β) (frame : Frame) (trace : List (Config σ)) :
    List.zipWith f (whenever what frame trace) (whenever what' frame trace) =
      whenever (fun c => f (what c) (what' c)) frame trace := by
  rw [whenever, whenever, whenever, List.zipWith_map, List.zipWith_self]

/-! ### Along a run -/

namespace Program

variable {p : Program} {state : MpiProcess} {limit : ℕ} {args : List String}
  {m : Machine MpiProcess} {records : List Record} {function : ℕ} {b : BlockId} {rest : List Inst}

/-- Behind what was added the clock shows what it showed before. -/
theorem clock_trace_append (h : p.run MpiProcess.host state limit args = (m, .ok records))
    (added : List Inst) (hin : Frame.IsIn p ⟨function, b, added ++ rest⟩)
    (hadded : ∀ inst ∈ added, inst.isOriginal = false) :
    whenever Config.clock ⟨function, b, added ++ rest⟩ (p.trace MpiProcess.host state limit) =
      whenever Config.clock ⟨function, b, rest⟩ (p.trace MpiProcess.host state limit) := by
  refine whenever_trace_append (·.host.clock) h hin fun inst hmem =>
    ⟨hadded inst hmem, fun m m' depth he => ?_⟩
  rw [Machine.host_of_added (hadded inst hmem) he]

end Program

end FlowProfile
