import FlowProfile.Proofs.Exec.Instruction
import Mathlib.Data.List.Basic

/-!
# What a run goes through

The steps of a run as a relation, the configurations that a run passes, and the blocks
that it visits. Each visit says by which edge control came, so that edges are told
apart by their place and not by where they lead.
-/

namespace FlowProfile

theorem Program.frameAt_eq_ok_iff {p : Program} {function : ℕ} {b : BlockId} {frame : Frame} :
    p.frameAt function b = .ok frame ↔
      ∃ block, p.block? function b = some block ∧ frame = ⟨function, b, block.insts⟩ := by
  simp only [frameAt, Program.function, Function.block, Outcome.bind_eq_ok_iff,
    Outcome.get_eq_ok_iff, Outcome.pure_eq_ok_iff, block?_eq_some_iff]
  constructor
  · rintro ⟨f, hf, block, hb, rfl⟩
    exact ⟨block, ⟨f, hf, hb⟩, rfl⟩
  · rintro ⟨block, ⟨f, hf, hb⟩, rfl⟩
    exact ⟨f, hf, block, hb, rfl⟩

theorem Program.follow_eq_ok_some_iff {p : Program} {function : ℕ} {b : BlockId}
    {vars : Variables} {visit : Visit} :
    p.follow function b vars = .ok (some visit) ↔
      ∃ f block succ dest, p.functions[function]? = some f ∧ f.blocks[b]? = some block ∧
        block.terminator.exit f.name vars = .ok (some succ) ∧
        block.terminator.successors[succ]? = some dest ∧
        visit = ⟨function, dest, some (b, succ)⟩ := by
  simp only [follow, Program.function, Function.block, Outcome.bind_eq_ok_iff,
    Outcome.get_eq_ok_iff]
  constructor
  · rintro ⟨f, hf, block, hb, exit, he, h⟩
    cases exit with
    | none => cases h
    | some succ =>
        simp only [Outcome.bind_eq_ok_iff, Outcome.get_eq_ok_iff, Outcome.pure_eq_ok_iff,
          Option.some.injEq] at h
        obtain ⟨dest, hd, rfl⟩ := h
        exact ⟨f, block, succ, dest, hf, hb, he, hd, rfl⟩
  · rintro ⟨f, block, succ, dest, hf, hb, he, hd, rfl⟩
    refine ⟨f, hf, block, hb, some succ, he, ?_⟩
    exact Outcome.bind_eq_ok_iff.mpr ⟨dest, Outcome.get_eq_ok_iff.mpr hd, rfl⟩

theorem Program.follow_eq_ok_none_iff {p : Program} {function : ℕ} {b : BlockId}
    {vars : Variables} :
    p.follow function b vars = .ok none ↔
      ∃ f block, p.functions[function]? = some f ∧ f.blocks[b]? = some block ∧
        block.terminator.exit f.name vars = .ok none := by
  simp only [follow, Program.function, Function.block, Outcome.bind_eq_ok_iff,
    Outcome.get_eq_ok_iff]
  constructor
  · rintro ⟨f, hf, block, hb, exit, he, h⟩
    cases exit with
    | none => exact ⟨f, block, hf, hb, he⟩
    | some succ =>
        simp only [Outcome.bind_eq_ok_iff, Outcome.pure_eq_ok_iff] at h
        obtain ⟨_, _, h⟩ := h
        cases h
  · rintro ⟨f, block, hf, hb, he⟩
    exact ⟨f, hf, block, hb, none, he, rfl⟩

/-! ### Steps -/

namespace Config

variable {σ : Type} (p : Program) (host : Host σ)

/-- A step that goes on, with the block that it begins. -/
inductive Moves : Config σ → Option Visit → Config σ → Prop where
  | proceed {m m' : Machine σ} {function : ℕ} {block : BlockId} {inst : Inst} {rest : List Inst}
      {callers : List Frame} (h : m.execute p host callers.length inst = .proceed m') :
      Moves ⟨m, ⟨function, block, inst :: rest⟩, callers⟩ none
        ⟨m', ⟨function, block, rest⟩, callers⟩
  | enter {m m' : Machine σ} {function callee : ℕ} {block : BlockId} {inst : Inst}
      {rest : List Inst} {callers : List Frame} {frame : Frame}
      (h : m.execute p host callers.length inst = .enter callee m')
      (hf : p.frameAt callee 0 = .ok frame) :
      Moves ⟨m, ⟨function, block, inst :: rest⟩, callers⟩ (some ⟨callee, 0, none⟩)
        ⟨m', frame, ⟨function, block, rest⟩ :: callers⟩
  | follow {m : Machine σ} {function : ℕ} {block : BlockId} {callers : List Frame}
      {frame : Frame} {visit : Visit}
      (h : p.follow function block m.vars = .ok (some visit))
      (hf : p.frameAt visit.function visit.block = .ok frame) :
      Moves ⟨m, ⟨function, block, []⟩, callers⟩ (some visit) ⟨m, frame, callers⟩
  | back {m : Machine σ} {function : ℕ} {block : BlockId} {callers : List Frame} {frame : Frame}
      (h : p.follow function block m.vars = .ok none) :
      Moves ⟨m, ⟨function, block, []⟩, frame :: callers⟩ none ⟨m, frame, callers⟩

/-- The block that the next step begins. -/
def visit? (c : Config σ) : Option Visit :=
  match c.frame.rest with
  | [] =>
    match p.follow c.frame.function c.frame.block c.machine.vars with
    | .ok visit => visit
    | .error _ => none
  | inst :: _ =>
    match c.machine.execute p host c.callers.length inst with
    | .enter callee _ => some ⟨callee, 0, none⟩
    | _ => none

variable {p host}

theorem Moves.visit?_eq {c c' : Config σ} {v : Option Visit} (h : Moves p host c v c') :
    c.visit? p host = v := by
  cases h with
  | proceed h => simp [visit?, h]
  | enter h _ => simp [visit?, h]
  | follow h _ => simp [visit?, h]
  | back h => simp [visit?, h]

theorem Moves.step_eq {c c' : Config σ} {v : Option Visit} (h : Moves p host c v c') :
    c.step p host = .running c' := by
  cases h with
  | proceed h => simp [step, h]
  | enter h hf => simp [step, h, hf]
  | follow h hf => simp [step, leave, h, hf]
  | back h => simp [step, leave, h]

/-- A step executes the next instruction. Where there is none the machine stays as it is. -/
theorem Moves.executes {c c' : Config σ} {v : Option Visit} (h : Moves p host c v c') :
    (∃ inst, c.frame.rest.head? = some inst ∧ Machine.Executes p c.machine inst c'.machine) ∨
      c.frame.rest.head? = none ∧ c'.machine = c.machine := by
  cases h with
  | @proceed m m' function block inst rest callers h =>
      exact .inl ⟨inst, rfl, Machine.executes_of_next? (by rw [h]; rfl)⟩
  | @enter m m' function callee block inst rest callers frame h hf =>
      exact .inl ⟨inst, rfl, Machine.executes_of_next? (by rw [h]; rfl)⟩
  | follow h hf => exact .inr ⟨rfl, rfl⟩
  | back h => exact .inr ⟨rfl, rfl⟩

theorem exists_moves_of_step {c c' : Config σ} (h : c.step p host = .running c') :
    ∃ v, Moves p host c v c' := by
  obtain ⟨m, ⟨function, block, rest⟩, callers⟩ := c
  cases rest with
  | nil =>
      simp only [step, leave] at h
      cases hf : p.follow function block m.vars with
      | error failure => simp [hf] at h
      | ok visit =>
          cases visit with
          | none =>
              cases callers with
              | nil => simp [hf] at h
              | cons frame callers =>
                  simp only [hf, Step.running.injEq] at h
                  exact ⟨none, h ▸ .back hf⟩
          | some visit =>
              simp only [hf] at h
              cases ha : p.frameAt visit.function visit.block with
              | error failure => simp [ha] at h
              | ok frame =>
                  simp only [ha, Step.running.injEq] at h
                  exact ⟨some visit, h ▸ .follow hf ha⟩
  | cons inst rest =>
      simp only [step] at h
      cases he : m.execute p host callers.length inst with
      | proceed m' =>
          simp only [he, Step.running.injEq] at h
          exact ⟨none, h ▸ .proceed he⟩
      | enter callee m' =>
          simp only [he] at h
          cases ha : p.frameAt callee 0 with
          | error failure => simp [ha] at h
          | ok frame =>
              simp only [ha, Step.running.injEq] at h
              exact ⟨some ⟨callee, 0, none⟩, h ▸ .enter he ha⟩
      | fail m' failure => simp [he] at h

theorem step_eq_finished_iff {c : Config σ} {m : Machine σ} :
    c.step p host = .finished m ↔
      c.machine = m ∧ c.frame.rest = [] ∧ c.callers = [] ∧
        p.follow c.frame.function c.frame.block m.vars = .ok none := by
  obtain ⟨m', ⟨function, block, rest⟩, callers⟩ := c
  constructor
  · intro h
    cases rest with
    | nil =>
        simp only [step, leave] at h
        cases hf : p.follow function block m'.vars with
        | error failure => simp [hf] at h
        | ok visit =>
            cases visit with
            | none =>
                cases callers with
                | nil =>
                    simp only [hf, Step.finished.injEq] at h
                    subst h
                    exact ⟨rfl, rfl, rfl, hf⟩
                | cons frame callers => simp [hf] at h
            | some visit =>
                simp only [hf] at h
                cases ha : p.frameAt visit.function visit.block <;> simp [ha] at h
    | cons inst rest =>
        simp only [step] at h
        cases he : m'.execute p host callers.length inst with
        | proceed m => simp [he] at h
        | enter callee m =>
            simp only [he] at h
            cases ha : p.frameAt callee 0 <;> simp [ha] at h
        | fail m failure => simp [he] at h
  · rintro ⟨rfl, rfl, rfl, hf⟩
    simp only at hf
    simp [step, leave, hf]

/-! ### Runs -/

variable (p host)

/-- The blocks that at most so many steps begin. -/
def visits : (steps : ℕ) → Config σ → List Visit
  | 0, _ => []
  | steps + 1, c =>
    match c.step p host with
    | .running c' => (c.visit? p host).toList ++ visits steps c'
    | _ => []

/-- Does the run end before it has taken so many steps and one more? -/
def endsWithin : (steps : ℕ) → Config σ → Bool
  | 0, _ => false
  | steps + 1, c =>
    match c.step p host with
    | .running c' => endsWithin steps c'
    | _ => true

/-- A configuration that a run comes to, with the visits and the number of steps before it. -/
inductive Passes (c : Config σ) : List Visit → ℕ → Config σ → Prop where
  | start : Passes c [] 0 c
  | move {vs : List Visit} {n : ℕ} {d e : Config σ} {v : Option Visit} (h : Passes c vs n d)
      (hm : Moves p host d v e) : Passes c (vs ++ v.toList) (n + 1) e

variable {p host}

theorem Passes.run_add {c d : Config σ} {vs : List Visit} {n : ℕ} (h : Passes p host c vs n d)
    (limit steps : ℕ) : c.run p host limit (n + steps) = d.run p host limit steps := by
  induction h generalizing steps with
  | start => rw [Nat.zero_add]
  | @move vs n d e v h hm ih =>
      rw [show n + 1 + steps = n + (steps + 1) by omega, ih, run, hm.step_eq]

theorem Passes.visits_add {c d : Config σ} {vs : List Visit} {n : ℕ}
    (h : Passes p host c vs n d) (steps : ℕ) :
    c.visits p host (n + steps) = vs ++ d.visits p host steps := by
  induction h generalizing steps with
  | start => rw [Nat.zero_add, List.nil_append]
  | @move vs n d e v h hm ih =>
      rw [show n + 1 + steps = n + (steps + 1) by omega, ih, visits, hm.step_eq, hm.visit?_eq,
        List.append_assoc]

theorem Passes.endsWithin_add {c d : Config σ} {vs : List Visit} {n : ℕ}
    (h : Passes p host c vs n d) (steps : ℕ) :
    c.endsWithin p host (n + steps) = d.endsWithin p host steps := by
  induction h generalizing steps with
  | start => rw [Nat.zero_add]
  | @move vs n d e v h hm ih =>
      rw [show n + 1 + steps = n + (steps + 1) by omega, ih, endsWithin, hm.step_eq]

theorem Passes.length_le {c d : Config σ} {vs : List Visit} {n : ℕ}
    (h : Passes p host c vs n d) : vs.length ≤ n := by
  induction h with
  | start => rfl
  | @move vs n d e v h hm ih =>
      have hv : v.toList.length ≤ 1 := by cases v <;> simp
      rw [List.length_append]
      omega

end Config

/-- What a run ends with, if the step is its last one. -/
def Step.result? {σ : Type} : Step σ → Option (Machine σ × Outcome Unit)
  | .running _ => none
  | .finished m => some (m, .ok ())
  | .failed m failure => some (m, .error failure)

namespace Config

variable {σ : Type} {p : Program} {host : Host σ}

variable (p host) in
theorem step_eq_running_or_result (c : Config σ) :
    (∃ c', c.step p host = .running c') ∨ ∃ r, (c.step p host).result? = some r := by
  cases h : c.step p host with
  | running c' => exact .inl ⟨c', rfl⟩
  | finished m => exact .inr ⟨(m, .ok ()), rfl⟩
  | failed m failure => exact .inr ⟨(m, .error failure), rfl⟩

theorem run_succ_of_result {c : Config σ} {r : Machine σ × Outcome Unit}
    (h : (c.step p host).result? = some r) (limit steps : ℕ) :
    c.run p host limit (steps + 1) = r := by
  rw [run]
  cases hs : c.step p host with
  | running c' => simp [hs, Step.result?] at h
  | finished m => simpa [hs, Step.result?] using h
  | failed m failure => simpa [hs, Step.result?] using h

theorem visits_succ_of_result {c : Config σ} {r : Machine σ × Outcome Unit}
    (h : (c.step p host).result? = some r) (steps : ℕ) : c.visits p host (steps + 1) = [] := by
  rw [visits]
  cases hs : c.step p host with
  | running c' => simp [hs, Step.result?] at h
  | finished m => rfl
  | failed m failure => rfl

theorem endsWithin_succ_of_result {c : Config σ} {r : Machine σ × Outcome Unit}
    (h : (c.step p host).result? = some r) (steps : ℕ) :
    c.endsWithin p host (steps + 1) = true := by
  rw [endsWithin]
  cases hs : c.step p host with
  | running c' => simp [hs, Step.result?] at h
  | finished m => rfl
  | failed m failure => rfl

variable (p host) in
/-- A run takes all its steps, or ends at a configuration that it comes to before. -/
theorem exists_passes (c : Config σ) (steps : ℕ) :
    (∃ vs d, Passes p host c vs steps d) ∨
      ∃ vs n d r, n < steps ∧ Passes p host c vs n d ∧ (d.step p host).result? = some r := by
  induction steps with
  | zero => exact .inl ⟨[], c, .start⟩
  | succ steps ih =>
      rcases ih with ⟨vs, d, hp⟩ | ⟨vs, n, d, r, hn, hp, hr⟩
      · rcases step_eq_running_or_result p host d with ⟨e, hs⟩ | ⟨r, hr⟩
        · obtain ⟨v, hm⟩ := exists_moves_of_step hs
          exact .inl ⟨_, e, hp.move hm⟩
        · exact .inr ⟨vs, steps, d, r, Nat.lt_succ_self steps, hp, hr⟩
      · exact .inr ⟨vs, n, d, r, Nat.lt_succ_of_lt hn, hp, hr⟩

theorem Passes.result_eq {c d : Config σ} {vs : List Visit} {n steps : ℕ}
    {r : Machine σ × Outcome Unit} (h : Passes p host c vs n d)
    (hr : (d.step p host).result? = some r) (hn : n < steps) (limit : ℕ) :
    c.run p host limit steps = r ∧ c.visits p host steps = vs ∧
      c.endsWithin p host steps = true := by
  obtain ⟨k, rfl⟩ : ∃ k, steps = n + (k + 1) := ⟨steps - n - 1, by omega⟩
  rw [h.run_add, h.visits_add, h.endsWithin_add, run_succ_of_result hr,
    visits_succ_of_result hr, endsWithin_succ_of_result hr, List.append_nil]
  exact ⟨rfl, rfl, rfl⟩

theorem Passes.not_endsWithin {c d : Config σ} {vs : List Visit} {n : ℕ}
    (h : Passes p host c vs n d) : c.endsWithin p host n = false := by
  rw [← Nat.add_zero n, h.endsWithin_add, endsWithin]

theorem exists_passes_of_endsWithin {c : Config σ} {steps : ℕ}
    (h : c.endsWithin p host steps = true) :
    ∃ n d r, n < steps ∧ Passes p host c (c.visits p host steps) n d ∧
      (d.step p host).result? = some r ∧ ∀ limit, c.run p host limit steps = r := by
  rcases exists_passes p host c steps with
    ⟨vs, d, hp⟩ | ⟨vs, n, d, r, hn, hp, hr⟩
  · rw [hp.not_endsWithin] at h
    cases h
  · have hv := (hp.result_eq hr hn 0).2.1
    exact ⟨n, d, r, hn, hv ▸ hp, hr, fun limit => (hp.result_eq hr hn limit).1⟩

theorem endsWithin_of_run_eq_ok {c : Config σ} {limit steps : ℕ} {m : Machine σ}
    (h : c.run p host limit steps = (m, .ok ())) : c.endsWithin p host steps = true := by
  rcases exists_passes p host c steps with
    ⟨vs, d, hp⟩ | ⟨vs, n, d, r, hn, hp, hr⟩
  · rw [← Nat.add_zero steps, hp.run_add, run] at h
    cases h
  · exact (hp.result_eq hr hn limit).2.2

/-- A run that returns comes to a configuration whose step finishes. -/
theorem exists_passes_of_run_eq_ok {c : Config σ} {limit steps : ℕ} {m : Machine σ}
    (h : c.run p host limit steps = (m, .ok ())) :
    ∃ n d, n < steps ∧ Passes p host c (c.visits p host steps) n d ∧
      d.step p host = .finished m := by
  obtain ⟨n, d, r, hn, hp, hr, hrun⟩ :=
    exists_passes_of_endsWithin (endsWithin_of_run_eq_ok h)
  have hrm : r = (m, .ok ()) := (hrun limit).symm.trans h
  subst hrm
  refine ⟨n, d, hn, hp, ?_⟩
  cases hs : d.step p host with
  | running c' => simp [hs, Step.result?] at hr
  | finished m' => simp_all [Step.result?]
  | failed m' failure => simp [hs, Step.result?] at hr

theorem Moves.unique {c d e : Config σ} {v w : Option Visit} (h : Moves p host c v d)
    (h' : Moves p host c w e) : v = w ∧ d = e :=
  ⟨h.visit?_eq.symm.trans h'.visit?_eq, Step.running.inj (h.step_eq.symm.trans h'.step_eq)⟩

theorem Moves.result?_eq {c d : Config σ} {v : Option Visit} (h : Moves p host c v d) :
    (c.step p host).result? = none := by
  rw [h.step_eq]
  rfl

/-- A run that ends passes fewer configurations than it may. -/
theorem Passes.lt_of_endsWithin {c d : Config σ} {vs : List Visit} {n limit : ℕ}
    (h : Passes p host c vs n d) (hends : c.endsWithin p host limit = true) : n < limit := by
  obtain ⟨k, e, r, hk, hp, hr, -⟩ := exists_passes_of_endsWithin hends
  by_contra hle
  have hn := (hp.result_eq hr (by omega : k < n) 0).2.2
  rw [h.not_endsWithin] at hn
  cases hn

/-- A run that ends goes the same way under every greater limit. -/
theorem run_of_endsWithin {c : Config σ} {steps more : ℕ}
    (h : c.endsWithin p host steps = true) (hle : steps ≤ more) (limit limit' : ℕ) :
    c.run p host limit' more = c.run p host limit steps ∧
      c.visits p host more = c.visits p host steps := by
  obtain ⟨n, d, r, hn, hp, hr, hrun⟩ := exists_passes_of_endsWithin h
  obtain ⟨hmore, hvisits, -⟩ := hp.result_eq hr (Nat.lt_of_lt_of_le hn hle) limit'
  exact ⟨hmore.trans (hrun limit).symm, hvisits⟩

/-- A run that does not end within its limit fails there. -/
theorem run_of_not_endsWithin {c : Config σ} {steps : ℕ}
    (h : c.endsWithin p host steps = false) (limit : ℕ) :
    ∃ vs d, Passes p host c vs steps d ∧ c.run p host limit steps =
      (d.machine, .error (.outside p d.callers (.error [] (.stepLimit limit)))) := by
  rcases exists_passes p host c steps with ⟨vs, d, hp⟩ | ⟨vs, n, d, r, hn, hp, hr⟩
  · refine ⟨vs, d, hp, ?_⟩
    rw [← Nat.add_zero steps, hp.run_add, run]
  · rw [(hp.result_eq hr hn limit).2.2] at h
    cases h

theorem result?_ok {c : Config σ} {r : Machine σ × Outcome Unit}
    (hr : (c.step p host).result? = some r) (hok : r.2 = .ok ()) : r.1 = c.machine := by
  cases hs : c.step p host with
  | running d => simp [hs, Step.result?] at hr
  | finished m =>
      obtain rfl : (m, .ok ()) = r := by simpa [hs, Step.result?] using hr
      exact (step_eq_finished_iff.mp hs).1.symm
  | failed m failure =>
      obtain rfl : (m, .error failure) = r := by simpa [hs, Step.result?] using hr
      cases hok

/-- The configuration at the entry of a function, with nothing done yet. -/
abbrev entering (p : Program) (state : σ) (function : ℕ) (entry : Block) : Config σ :=
  ⟨.initial p state, ⟨function, 0, entry.insts⟩, []⟩

end Config

/-! ### Programs -/

namespace Program

variable {σ : Type} (p : Program) (host : Host σ) (state : σ)

/-- The blocks that a run of the program begins, the entry of `main` first. -/
def visits (limit : ℕ) : List Visit :=
  match p.start state with
  | .ok c => ⟨c.frame.function, c.frame.block, none⟩ :: c.visits p host limit
  | .error _ => []

/-- Does the run end before it is stopped at its limit? -/
def endsWithin (limit : ℕ) : Bool :=
  match p.start state with
  | .ok c => c.endsWithin p host limit
  | .error _ => true

variable {p host state}

theorem start_eq_ok_iff {c : Config σ} :
    p.start state = .ok c ↔
      p.IsValid ∧ ∃ main block, p.functionIndex? "main" = some main ∧
        p.block? main 0 = some block ∧ c = .entering p state main block := by
  simp only [start, Outcome.bind_eq_ok_iff, Outcome.ofOption_eq_ok_iff]
  constructor
  · rintro ⟨_, hv, main, hm, h⟩
    cases hf : p.frameAt main 0 with
    | error failure => simp [hf] at h
    | ok frame =>
        obtain ⟨block, hb, rfl⟩ := frameAt_eq_ok_iff.mp hf
        simp only [hf, Outcome.pure_eq_ok_iff] at h
        exact ⟨(validate_eq_ok_iff p).mp hv, main, block, hm, hb, h.symm⟩
  · rintro ⟨hv, main, block, hm, hb, rfl⟩
    have hf := frameAt_eq_ok_iff.mpr ⟨block, hb, rfl⟩
    refine ⟨(), (validate_eq_ok_iff p).mpr hv, main, hm, ?_⟩
    rw [hf]
    rfl

theorem run_of_start {c : Config σ} {limit : ℕ} {r : Machine σ × Outcome Unit}
    (hstart : p.start state = .ok c) (hrun : c.run p host limit limit = r) (args : List String) :
    (p.run host state limit args).1 = r.1 ∧
      ((∃ records, (p.run host state limit args).2 = .ok records) ↔
        r.2 = .ok () ∧ ∃ records, r.1.records args = .ok records) := by
  obtain ⟨m, failure | ⟨⟩⟩ := r
  · simp [run, hstart, hrun]
  · simp [run, hstart, hrun]

theorem run_eq_ok_iff {limit : ℕ} {args : List String} {m : Machine σ} {records : List Record} :
    p.run host state limit args = (m, .ok records) ↔
      ∃ c, p.start state = .ok c ∧ c.run p host limit limit = (m, .ok ()) ∧
        m.records args = .ok records := by
  unfold run
  cases hs : p.start state with
  | error failure => simp
  | ok c =>
      rcases hr : c.run p host limit limit with ⟨m', failure | ⟨⟩⟩
      · simp [hr]
      · simp only [Prod.mk.injEq, Except.ok.injEq, exists_eq_left', hr]
        grind

end Program

end FlowProfile
