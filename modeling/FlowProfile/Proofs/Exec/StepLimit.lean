import FlowProfile.Proofs.Exec.Requests

/-!
# The step limit

A run ends by itself, or it is stopped when it has taken all the steps that it may. With a greater
limit a run that ended goes the same way, and a run that was stopped goes on from where it was: it
has asked its host for all that it asked before.
-/

namespace FlowProfile

/-! ### Failures at the limit -/

/-- The result of a run that was stopped at a limit. -/
def IsStopped {α : Type} (result : Outcome α) : Prop :=
  ∃ contexts limit, result = .error (.error contexts (.stepLimit limit))

theorem Failure.outside_error (p : Program) (callers : List Frame) (contexts : List Context)
    (cause : Cause) :
    ∃ contexts', (Failure.error contexts cause).outside p callers = .error contexts' cause := by
  unfold outside
  induction callers generalizing contexts with
  | nil => exact ⟨contexts, rfl⟩
  | cons frame callers ih => exact ih (frame.context p :: contexts)

namespace Config

variable {σ : Type} (p : Program) (host : Host σ)

/-- How a run ends: its last step ends it, or it is stopped with all its steps taken. The number is
that of its counted instructions and terminators. -/
inductive EndsAfter (c : Config σ) (limit : ℕ) : ℕ → Machine σ × Outcome Unit → Prop where
  | itself {vs : List Visit} {n : ℕ} {d : Config σ} {r : Machine σ × Outcome Unit}
      (h : Passes p host c vs n d) (hn : n < limit) (hr : (d.step p host).result? = some r) :
      EndsAfter c limit (n + 1) r
  | stopped {vs : List Visit} {d : Config σ} (h : Passes p host c vs limit d) :
      EndsAfter c limit limit
        (d.machine, .error (.outside p d.callers (.error [] (.stepLimit limit))))

variable {p host}

theorem EndsAfter.run_eq {c : Config σ} {limit n : ℕ} {r : Machine σ × Outcome Unit}
    (h : EndsAfter p host c limit n r) : c.run p host limit limit = r := by
  cases h with
  | itself h hn hr => exact (h.result_eq hr hn limit).1
  | stopped h => rw [← Nat.add_zero limit, h.run_add, run, Nat.add_zero]

variable (p host) in
theorem exists_endsAfter (c : Config σ) (limit : ℕ) :
    ∃ n ≤ limit, EndsAfter p host c limit n (c.run p host limit limit) := by
  rcases exists_passes p host c limit with ⟨vs, d, hp⟩ | ⟨vs, n, d, r, hn, hp, hr⟩
  · have h : EndsAfter p host c limit limit _ := .stopped hp
    exact ⟨limit, le_rfl, h.run_eq ▸ h⟩
  · have h : EndsAfter p host c limit (n + 1) r := .itself hp hn hr
    exact ⟨n + 1, hn, h.run_eq ▸ h⟩

/-- A run that ended asks for nothing more under a greater limit. -/
theorem requests_of_endsWithin {c : Config σ} {limit more : ℕ}
    (h : c.endsWithin p host limit = true) (hle : limit ≤ more) :
    c.requests p host more = c.requests p host limit := by
  obtain ⟨n, d, r, hn, hp, hr, -⟩ := exists_passes_of_endsWithin h
  rw [hp.requests_eq hr hn, hp.requests_eq hr (Nat.lt_of_lt_of_le hn hle)]

/-- A run that was stopped goes on under a greater limit. -/
theorem requests_prefix (c : Config σ) {limit more : ℕ} (hle : limit ≤ more) :
    c.requests p host limit <+: c.requests p host more := by
  cases hends : c.endsWithin p host limit with
  | true => rw [requests_of_endsWithin hends hle]
  | false =>
      obtain ⟨vs, d, hp, -⟩ := run_of_not_endsWithin hends limit
      obtain ⟨k, rfl⟩ := Nat.exists_eq_add_of_le hle
      rw [hp.requests_add]
      exact List.prefix_append ..

end Config

namespace Program

variable {σ : Type} (p : Program) (host : Host σ) (state : σ)

theorem requests_prefix {limit more : ℕ} (hle : limit ≤ more) :
    p.requests host state limit <+: p.requests host state more := by
  unfold requests
  cases p.start state with
  | error failure => exact List.prefix_rfl
  | ok c => exact c.requests_prefix hle

variable {p host state}

/-- A run that was not stopped is the same under every greater limit. -/
theorem run_of_not_isStopped {limit more : ℕ} {args : List String}
    (h : ¬IsStopped (p.run host state limit args).2) (hle : limit ≤ more) :
    p.run host state more args = p.run host state limit args ∧
      p.requests host state more = p.requests host state limit := by
  cases hstart : p.start state with
  | error failure => simp only [run, requests, hstart, and_self]
  | ok c =>
      have hends : c.endsWithin p host limit = true := by
        by_contra hends
        obtain ⟨vs, d, -, hrun⟩ := Config.run_of_not_endsWithin (by simpa using hends) limit
        obtain ⟨contexts, hfailure⟩ := Failure.outside_error p d.callers [] (.stepLimit limit)
        refine h ⟨contexts, limit, ?_⟩
        simp only [run, hstart, hrun, hfailure]
      simp only [run, requests, hstart, Config.requests_of_endsWithin hends hle,
        (Config.run_of_endsWithin hends hle limit more).1, and_self]

variable (p host state) in
/-- Every run ends within its limit of counted steps. If it was not stopped there, then under every
greater limit its result, its machine at the end and its requests are the same, and anyway the
greater limit only adds requests to those that were made. -/
theorem run_truncates (limit : ℕ) (args : List String) :
    (∀ c, p.start state = .ok c →
      ∃ n ≤ limit, Config.EndsAfter p host c limit n (c.run p host limit limit)) ∧
      ∀ more, limit ≤ more →
        (¬IsStopped (p.run host state limit args).2 →
          p.run host state more args = p.run host state limit args ∧
            p.requests host state more = p.requests host state limit) ∧
          p.requests host state limit <+: p.requests host state more :=
  ⟨fun c _ => c.exists_endsAfter p host limit, fun _ hle =>
    ⟨fun h => run_of_not_isStopped h hle, p.requests_prefix host state hle⟩⟩

end Program

/-- Sends three times, in fourteen steps. -/
def sendInLoop : Program where
  functions := [
    ⟨"main", [
      ⟨"entry", [], .br 1⟩,
      ⟨"body", [.call (.direct "MPI_Send") [.const 0, .const 4, .const 8],
        .op "add" (some "i") [.var "i", .const 1],
        .op "lt" (some "again") [.var "i", .const 3]], .condBr (.var "again") 1 2⟩,
      ⟨"exit", [], .ret⟩]⟩]
  globals := []

/-- Stopped after one request of three, and with room for a hundred steps the same as with
fourteen. -/
theorem run_truncates_sendInLoop :
    IsStopped (sendInLoop.run MpiProcess.host (.start 0 1 .zero) 4 []).2 ∧
      (sendInLoop.requests MpiProcess.host (.start 0 1 .zero) 4).length = 1 ∧
      (sendInLoop.requests MpiProcess.host (.start 0 1 .zero) 14).length = 3 ∧
      sendInLoop.requests MpiProcess.host (.start 0 1 .zero) 4 <+:
        sendInLoop.requests MpiProcess.host (.start 0 1 .zero) 14 ∧
      (sendInLoop.run MpiProcess.host (.start 0 1 .zero) 14 []).2 = .ok [] ∧
      sendInLoop.run MpiProcess.host (.start 0 1 .zero) 100 [] =
        sendInLoop.run MpiProcess.host (.start 0 1 .zero) 14 [] := by
  have hends : (sendInLoop.run MpiProcess.host (.start 0 1 .zero) 14 []).2 = .ok [] := rfl
  have hnot : ¬IsStopped (sendInLoop.run MpiProcess.host (.start 0 1 .zero) 14 []).2 := by
    rw [hends]
    exact nofun
  refine ⟨⟨[], 4, rfl⟩, rfl, rfl, ?_, hends, ?_⟩
  · exact ((sendInLoop.run_truncates MpiProcess.host _ 4 []).2 14 (by decide)).2
  · exact (((sendInLoop.run_truncates MpiProcess.host _ 14 []).2 100 (by decide)).1 hnot).1

end FlowProfile
