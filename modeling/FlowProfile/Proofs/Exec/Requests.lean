import FlowProfile.Proofs.Exec.Trace

/-!
# What a run asks of its host

The calls of a run that reach the host, with the variables as they were, and hosts that
answer alike whatever they are asked.
-/

namespace FlowProfile

/-- A call that the host has to answer. -/
structure Request where
  callee : String
  args : List Operand
  vars : Variables
deriving DecidableEq, Repr

/-! ### Answers -/

namespace Host

variable {σ : Type} (host : Host σ)

/-- What the host answers to requests one after another. -/
def answers : σ → List Request → List (Outcome Variables)
  | _, [] => []
  | state, r :: requests =>
    (host.call state r.callee r.args r.vars).2 ::
      answers (host.call state r.callee r.args r.vars).1 requests

/-- No requests tell the states apart. -/
def Alike (s t : σ) : Prop := ∀ requests, host.answers s requests = host.answers t requests

/-- Asking for the time does not change any answer. -/
def IgnoresClock : Prop := ∀ state, host.Alike state (host.now state).1

variable {host}

theorem Alike.refl (state : σ) : host.Alike state state := fun _ => rfl

theorem Alike.trans {s t u : σ} (hst : host.Alike s t) (htu : host.Alike t u) : host.Alike s u :=
  fun requests => (hst requests).trans (htu requests)

theorem Alike.answer {s t : σ} (h : host.Alike s t) (callee : String) (args : List Operand)
    (vars : Variables) : (host.call s callee args vars).2 = (host.call t callee args vars).2 :=
  (List.cons.inj (h [⟨callee, args, vars⟩])).1

theorem Alike.call {s t : σ} (h : host.Alike s t) (callee : String) (args : List Operand)
    (vars : Variables) :
    host.Alike (host.call s callee args vars).1 (host.call t callee args vars).1 :=
  fun requests => (List.cons.inj (h (⟨callee, args, vars⟩ :: requests))).2

end Host

/-! ### Requests of a run -/

namespace Config

variable {σ : Type} (p : Program) (host : Host σ)

/-- What the next step asks of the host. -/
def request? (c : Config σ) : Option Request :=
  match c.frame.rest with
  | .call callee args :: _ =>
    match callee.resolve p c.machine.vars with
    | .ok name =>
      if Strategy.ofEntryPoint? name = none ∧ p.definition? name = none then
        some ⟨name, args, c.machine.vars⟩
      else none
    | .error _ => none
  | _ => none

/-- What at most so many steps ask of the host. -/
def requests : (steps : ℕ) → Config σ → List Request
  | 0, _ => []
  | steps + 1, c =>
    (c.request? p).toList ++
      match c.step p host with
      | .running c' => requests steps c'
      | _ => []

variable {p host}

theorem Moves.requests_succ {c d : Config σ} {v : Option Visit} (h : Moves p host c v d)
    (steps : ℕ) :
    c.requests p host (steps + 1) = (c.request? p).toList ++ d.requests p host steps := by
  rw [requests, h.step_eq]

theorem Passes.requests_add {c d : Config σ} {vs : List Visit} {n : ℕ}
    (h : Passes p host c vs n d) (steps : ℕ) :
    c.requests p host (n + steps) = c.requests p host n ++ d.requests p host steps := by
  induction h generalizing steps with
  | start => rw [Nat.zero_add, requests, List.nil_append]
  | @move vs n d e v h hm ih =>
      have hlast := ih (0 + 1)
      rw [hm.requests_succ, requests, List.append_nil, Nat.zero_add] at hlast
      rw [show n + 1 + steps = n + (steps + 1) by omega, ih, hm.requests_succ, hlast,
        List.append_assoc]

theorem Passes.requests_succ {c d e : Config σ} {vs : List Visit} {n : ℕ} {v : Option Visit}
    (h : Passes p host c vs n d) (hm : Moves p host d v e) :
    c.requests p host (n + 1) = c.requests p host n ++ (d.request? p).toList := by
  rw [h.requests_add, ← Nat.zero_add 1, hm.requests_succ, requests, List.append_nil]

/-- All requests of a run that ends. -/
theorem Passes.requests_eq {c d : Config σ} {vs : List Visit} {n steps : ℕ}
    {r : Machine σ × Outcome Unit} (h : Passes p host c vs n d)
    (hr : (d.step p host).result? = some r) (hn : n < steps) :
    c.requests p host steps = c.requests p host n ++ (d.request? p).toList := by
  obtain ⟨k, rfl⟩ : ∃ k, steps = n + (k + 1) := ⟨steps - n - 1, by omega⟩
  rw [h.requests_add, requests]
  cases hs : d.step p host with
  | running d' => simp [hs, Step.result?] at hr
  | finished m => rw [List.append_nil]
  | failed m failure => rw [List.append_nil]

end Config

/-- What a run of the program asks of its host. -/
def Program.requests {σ : Type} (p : Program) (host : Host σ) (state : σ) (limit : ℕ) :
    List Request :=
  match p.start state with
  | .ok c => c.requests p host limit
  | .error _ => []

end FlowProfile
