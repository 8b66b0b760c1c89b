import FlowProfile.Proofs.Exec.Counting
import FlowProfile.Proofs.Graph.Plain

/-!
# Places of a run

A run comes to the place behind an instruction as often as it came to the instruction, except for
calls that are still open. Behind an instruction that is not of the program itself it finds
the variables as they were.
-/

namespace FlowProfile

/-- Is it of the program itself: a computation, or a call of anything but an entry point? -/
def Inst.isOriginal (inst : Inst) : Bool :=
  inst.isOwn && (inst.callee?.bind Strategy.ofEntryPoint?).isNone

/-- An indirect call is of the program itself whatever it resolves to, a direct one by its name. -/
theorem Inst.isOriginal_call {p : Program} {vars : Variables} {callee : Callee} {name : String}
    (hr : callee.resolve p vars = .ok name) (hs : Strategy.ofEntryPoint? name = none)
    (args : List Operand) : (call callee args).isOriginal = true := by
  cases callee with
  | direct target =>
      obtain rfl : target = name := by simpa [Callee.resolve] using hr
      simp [isOriginal, isOwn, callee?, hs]
  | indirect target => rfl

namespace Machine

variable {σ : Type} {p : Program} {host : Host σ} {m m' : Machine σ} {inst : Inst}

/-- Only the program itself sets variables. -/
theorem Executes.vars_eq (h : Executes p m inst m') (hinst : inst.isOriginal = false) :
    m'.vars = m.vars := by
  cases h with
  | op vars => cases hinst
  | call hr hs state vars =>
      rw [Inst.isOriginal_call hr hs] at hinst
      cases hinst
  | _ => rfl

/-- Only the program itself calls its functions. -/
theorem execute_ne_enter (hinst : inst.isOriginal = false) {depth callee : ℕ} :
    m.execute p host depth inst ≠ .enter callee m' := by
  intro h
  obtain ⟨callee, args, name, rfl, hr, hs, -⟩ := exists_call_of_enter h
  rw [Inst.isOriginal_call hr hs] at hinst
  cases hinst

end Machine

/-! ### Configurations of a run -/

namespace Config

variable {σ : Type} (p : Program) (host : Host σ)

/-- The configurations that at most so many steps start from. -/
def trace : (steps : ℕ) → Config σ → List (Config σ)
  | 0, _ => []
  | steps + 1, c => c ::
    match c.step p host with
    | .running c' => trace steps c'
    | _ => []

variable {p host}

theorem Moves.trace_succ {c d : Config σ} {v : Option Visit} (h : Moves p host c v d)
    (steps : ℕ) : c.trace p host (steps + 1) = c :: d.trace p host steps := by
  rw [trace, h.step_eq]

theorem Passes.trace_add {c d : Config σ} {vs : List Visit} {n : ℕ}
    (h : Passes p host c vs n d) (steps : ℕ) :
    c.trace p host (n + steps) = c.trace p host n ++ d.trace p host steps := by
  induction h generalizing steps with
  | start => rw [Nat.zero_add, trace, List.nil_append]
  | @move vs n d e v h hm ih =>
      have hlast := ih (0 + 1)
      rw [hm.trace_succ, trace, Nat.zero_add] at hlast
      rw [show n + 1 + steps = n + (steps + 1) by omega, ih, hm.trace_succ, hlast,
        List.append_assoc]
      rfl

theorem Passes.trace_succ {c d e : Config σ} {vs : List Visit} {n : ℕ} {v : Option Visit}
    (h : Passes p host c vs n d) (hm : Moves p host d v e) :
    c.trace p host (n + 1) = c.trace p host n ++ [d] := by
  rw [h.trace_add, ← Nat.zero_add 1, hm.trace_succ, trace]

/-- All configurations of a run that ends. -/
theorem Passes.trace_eq {c d : Config σ} {vs : List Visit} {n steps : ℕ} {m : Machine σ}
    (h : Passes p host c vs n d) (hd : d.step p host = .finished m) (hn : n < steps) :
    c.trace p host steps = c.trace p host n ++ [d] := by
  obtain ⟨k, rfl⟩ : ∃ k, steps = n + (k + 1) := ⟨steps - n - 1, by omega⟩
  rw [h.trace_add, trace, hd]

variable (p host) in
theorem length_trace_le (steps : ℕ) (c : Config σ) : (c.trace p host steps).length ≤ steps := by
  induction steps generalizing c with
  | zero => exact le_rfl
  | succ steps ih =>
      rw [trace, List.length_cons]
      cases c.step p host with
      | running c' => exact Nat.succ_le_succ (ih c')
      | finished m => exact Nat.succ_le_succ (Nat.zero_le steps)
      | failed m failure => exact Nat.succ_le_succ (Nat.zero_le steps)

theorem moves_of_trace {c d e : Config σ} {steps : ℕ} {rest : List (Config σ)}
    (h : c.trace p host steps = d :: e :: rest) : ∃ v, Moves p host d v e := by
  cases steps with
  | zero => cases h
  | succ steps =>
      rw [trace] at h
      obtain ⟨rfl, hrest⟩ := List.cons.inj h
      cases hs : c.step p host with
      | running c' =>
          simp only [hs] at hrest
          cases steps with
          | zero => cases hrest
          | succ steps =>
              rw [trace] at hrest
              obtain ⟨rfl, -⟩ := List.cons.inj hrest
              exact exists_moves_of_step hs
      | finished m => simp [hs] at hrest
      | failed m failure => simp [hs] at hrest

/-- A run comes to what stands in its trace, by way of what stands before it. -/
theorem exists_passes_of_trace {c d : Config σ} {past rest : List (Config σ)} {steps : ℕ}
    (h : c.trace p host steps = past ++ d :: rest) :
    ∃ vs, Passes p host c vs past.length d ∧ past = c.trace p host past.length := by
  induction past using List.reverseRecOn generalizing d rest with
  | nil =>
      cases steps with
      | zero => cases h
      | succ steps =>
          rw [trace, List.nil_append] at h
          obtain ⟨rfl, -⟩ := List.cons.inj h
          exact ⟨[], .start, rfl⟩
  | append_singleton past b ih =>
      rw [List.append_assoc, List.singleton_append] at h
      obtain ⟨vs, hp, hpast⟩ := ih h
      have hle := length_trace_le p host steps c
      rw [h, List.length_append] at hle
      obtain ⟨k, rfl⟩ : ∃ k, steps = past.length + k := ⟨steps - past.length, by omega⟩
      rw [hp.trace_add, ← hpast] at h
      obtain ⟨v, hm⟩ := moves_of_trace (List.append_cancel_left h)
      refine ⟨_, by simpa using hp.move hm, ?_⟩
      rw [List.length_append, List.length_singleton, hp.trace_succ hm, ← hpast]

end Config

/-- What there was whenever a run came to a place. -/
def whenever {σ α : Type} (what : Config σ → α) (frame : Frame) (trace : List (Config σ)) :
    List α :=
  (trace.filter (·.frame = frame)).map what

section

variable {σ α : Type} (what : Config σ → α) (frame : Frame) (trace : List (Config σ))
  (c : Config σ)

theorem whenever_append_singleton : whenever what frame (trace ++ [c]) =
    whenever what frame trace ++ if c.frame = frame then [what c] else [] := by
  by_cases h : c.frame = frame <;> simp [whenever, h]

theorem length_whenever : (whenever what frame trace).length = trace.countP (·.frame = frame) := by
  rw [whenever, List.length_map, List.countP_eq_length_filter]

end

/-- The variables whenever a run came to a place. -/
def seen {σ : Type} (frame : Frame) (trace : List (Config σ)) : List Variables :=
  (trace.filter (·.frame = frame)).map (·.machine.vars)

theorem seen_eq_whenever {σ : Type} (frame : Frame) (trace : List (Config σ)) :
    seen frame trace = whenever (·.machine.vars) frame trace := rfl

theorem seen_append {σ : Type} (frame : Frame) (trace trace' : List (Config σ)) :
    seen frame (trace ++ trace') = seen frame trace ++ seen frame trace' := by
  simp [seen]

theorem seen_singleton {σ : Type} (frame : Frame) (c : Config σ) :
    seen frame [c] = if c.frame = frame then [c.machine.vars] else [] := by
  by_cases h : c.frame = frame <;> simp [seen, h]

theorem length_seen {σ : Type} (frame : Frame) (trace : List (Config σ)) :
    (seen frame trace).length = trace.countP (·.frame = frame) := by
  rw [seen, List.length_map, List.countP_eq_length_filter]

/-! ### Places in a block -/

namespace Frame

variable {p : Program} {function : ℕ} {b : BlockId} {inst inst' : Inst} {rest : List Inst}

/-- A block has one instruction before what is left of it. -/
theorem IsIn.eq_of_cons (h : IsIn p ⟨function, b, inst :: rest⟩)
    (h' : IsIn p ⟨function, b, inst' :: rest⟩) : inst = inst' := by
  obtain ⟨block, hb, hsuffix⟩ := h
  obtain ⟨block', hb', hsuffix'⟩ := h'
  obtain rfl : block = block' := Option.some.inj (hb.symm.trans hb')
  have heq : inst :: rest = inst' :: rest :=
    (List.suffix_of_suffix_length_le hsuffix hsuffix' le_rfl).eq_of_length rfl
  exact (List.cons.inj heq).1

/-- A place is behind an instruction if and only if the instruction comes before it. -/
theorem IsIn.behind_iff (h : IsIn p ⟨function, b, inst :: rest⟩) {function' : ℕ} {b' : BlockId}
    {rest' : List Inst} (h' : IsIn p ⟨function', b', inst' :: rest'⟩) :
    (⟨function', b', rest'⟩ : Frame) = ⟨function, b, rest⟩ ↔
      (⟨function', b', inst' :: rest'⟩ : Frame) = ⟨function, b, inst :: rest⟩ := by
  constructor
  · intro heq
    obtain ⟨rfl, rfl, rfl⟩ := Frame.mk.inj heq
    rw [h.eq_of_cons h']
  · intro heq
    obtain ⟨rfl, rfl, hrest⟩ := Frame.mk.inj heq
    rw [(List.cons.inj hrest).2]

/-- Behind an instruction is not the start of a block. -/
theorem IsIn.ne_start (h : IsIn p ⟨function, b, inst :: rest⟩) {function' : ℕ} {b' : BlockId}
    {frame : Frame} (hframe : p.frameAt function' b' = .ok frame) :
    frame ≠ ⟨function, b, rest⟩ := by
  rintro rfl
  obtain ⟨block', hb', heq⟩ := Program.frameAt_eq_ok_iff.mp hframe
  obtain ⟨rfl, rfl, rfl⟩ := Frame.mk.inj heq
  obtain ⟨block, hb, hsuffix⟩ := h
  obtain rfl : block = block' := Option.some.inj (hb.symm.trans hb')
  have hlen := hsuffix.length_le
  simp at hlen

end Frame

namespace Config

variable {σ : Type} {p : Program} {host : Host σ} {function : ℕ} {b : BlockId} {inst : Inst}
  {rest : List Inst}

/-- A step that does not come from an instruction does not come to the place behind it. -/
theorem Moves.frames_count (hin : Frame.IsIn p ⟨function, b, inst :: rest⟩) {c d : Config σ}
    {v : Option Visit} (hframes : ∀ f ∈ c.frames, f.IsIn p) (h : Moves p host c v d) :
    d.frames.count ⟨function, b, rest⟩ + (if c.frame = ⟨function, b, rest⟩ then 1 else 0) =
      c.frames.count ⟨function, b, rest⟩ +
        if c.frame = ⟨function, b, inst :: rest⟩ then 1 else 0 := by
  have hcurrent := hframes c.frame List.mem_cons_self
  cases h with
  | proceed he =>
      simp only [frames, List.count_cons, beq_iff_eq, hin.behind_iff hcurrent]
      omega
  | enter he hf =>
      simp only [frames, List.count_cons, beq_iff_eq, hin.behind_iff hcurrent,
        if_neg (hin.ne_start hf)]
      omega
  | follow he hf =>
      simp only [frames, List.count_cons, beq_iff_eq, if_neg (hin.ne_start hf)]
      simp
  | back he =>
      simp only [frames, List.count_cons, beq_iff_eq]
      simp

/-- A run comes back to an instruction for each call that is still open. -/
theorem Passes.countP_behind {m : Machine σ} {main : ℕ} {entry : Block}
    (hb : p.block? main 0 = some entry) (hin : Frame.IsIn p ⟨function, b, inst :: rest⟩)
    {vs : List Visit} {n : ℕ} {d : Config σ}
    (h : Passes p host ⟨m, ⟨main, 0, entry.insts⟩, []⟩ vs n d) :
    (trace p host n ⟨m, ⟨main, 0, entry.insts⟩, []⟩).countP
        (·.frame = ⟨function, b, inst :: rest⟩) =
      (trace p host n ⟨m, ⟨main, 0, entry.insts⟩, []⟩).countP (·.frame = ⟨function, b, rest⟩) +
        d.frames.count ⟨function, b, rest⟩ := by
  induction h with
  | start =>
      have hstart := hin.ne_start (Program.frameAt_eq_ok_iff.mpr ⟨entry, hb, rfl⟩)
      simp [trace, frames, hstart]
  | @move vs n d e v h hm ih =>
      have hcount := hm.frames_count hin (h.coherent hb).frames
      rw [h.trace_succ hm, List.countP_append, List.countP_append, ih, List.countP_singleton,
        List.countP_singleton]
      simp only [decide_eq_true_eq]
      omega

/-- A run has ended each execution of a block but those that are still open. -/
theorem Passes.countP_end {m : Machine σ} {main : ℕ} {entry : Block} {vs : List Visit} {n : ℕ}
    {d : Config σ} (h : Passes p host ⟨m, ⟨main, 0, entry.insts⟩, []⟩ vs n d) (function : ℕ)
    (b : BlockId) : (trace p host n ⟨m, ⟨main, 0, entry.insts⟩, []⟩).countP
        (·.frame = ⟨function, b, []⟩) + standing d.frames function (· = b) =
      executions (⟨main, 0, none⟩ :: vs) function b := by
  induction h with
  | start => simp [trace, standing, frames, executions, List.countP_cons]
  | @move vs n d e v h hm ih =>
      rw [h.trace_succ hm, List.countP_append, List.countP_singleton, ← List.cons_append,
        executions, List.countP_append, ← executions, ← ih]
      cases hm with
      | proceed he => simp [standing, frames, List.countP_cons]
      | enter he hf =>
          obtain ⟨block, -, rfl⟩ := Program.frameAt_eq_ok_iff.mp hf
          simp [standing, frames, List.countP_cons]
          omega
      | follow he hf =>
          obtain ⟨block, -, rfl⟩ := Program.frameAt_eq_ok_iff.mp hf
          simp [standing, frames, List.countP_cons]
          omega
      | back he =>
          simp [standing, frames, List.countP_cons]
          omega

/-- A step over an instruction that is none of the program itself stays in the function. -/
theorem Moves.proceeds {c d : Config σ} {v : Option Visit} (h : Moves p host c v d)
    (hhead : c.frame.rest.head? = some inst) (hinst : inst.isOriginal = false) :
    c.machine.execute p host c.callers.length inst = .proceed d.machine := by
  cases h with
  | proceed he =>
      obtain rfl := Option.some.inj hhead
      exact he
  | enter he hf =>
      obtain rfl := Option.some.inj hhead
      exact absurd he (Machine.execute_ne_enter hinst)
  | follow he hf => cases hhead
  | back he => cases hhead

/-- No call comes back to the place behind an instruction that enters no function. -/
theorem Moves.not_mem_callers (hin : Frame.IsIn p ⟨function, b, inst :: rest⟩)
    (hinst : ∀ (m m' : Machine σ) depth callee, m.execute p host depth inst ≠ .enter callee m')
    {c d : Config σ} {v : Option Visit} (hframes : ∀ f ∈ c.frames, f.IsIn p)
    (h : Moves p host c v d) (hc : (⟨function, b, rest⟩ : Frame) ∉ c.callers) :
    (⟨function, b, rest⟩ : Frame) ∉ d.callers := by
  have hcurrent := hframes c.frame List.mem_cons_self
  cases h with
  | proceed he => exact hc
  | @enter m m' g callee x i r callers frame he hf =>
      rw [List.mem_cons, not_or]
      refine ⟨fun heq => ?_, hc⟩
      obtain ⟨-, -, hinsts⟩ := Frame.mk.inj ((hin.behind_iff hcurrent).mp heq.symm)
      obtain ⟨rfl, -⟩ := List.cons.inj hinsts
      exact hinst m m' _ callee he
  | follow he hf => exact hc
  | back he => exact fun hmem => hc (List.mem_cons_of_mem _ hmem)

/-- If no call comes back to it, a run comes to that place over the instruction. -/
theorem Moves.comes_behind (hin : Frame.IsIn p ⟨function, b, inst :: rest⟩) {c d : Config σ}
    {v : Option Visit} (hframes : ∀ f ∈ c.frames, f.IsIn p) (h : Moves p host c v d)
    (hc : (⟨function, b, rest⟩ : Frame) ∉ c.callers) (hd : d.frame = ⟨function, b, rest⟩) :
    c.machine.execute p host c.callers.length inst = .proceed d.machine := by
  have hcurrent := hframes c.frame List.mem_cons_self
  cases h with
  | proceed he =>
      obtain ⟨-, -, hinsts⟩ := Frame.mk.inj ((hin.behind_iff hcurrent).mp hd)
      obtain ⟨rfl, -⟩ := List.cons.inj hinsts
      exact he
  | enter he hf => exact absurd hd (hin.ne_start hf)
  | follow he hf => exact absurd hd (hin.ne_start hf)
  | back he => exact absurd (hd ▸ List.mem_cons_self) hc

/-- What holds of the place behind an instruction that enters no function: no call comes back to it,
and a run has come to it each time that it was at the instruction, one after another. -/
structure Follows {α : Type} (what what' : Config σ → α) (past : List (Config σ)) (d : Config σ)
    (before behind : Frame) : Prop where
  callers : behind ∉ d.callers
  same : whenever what before past = whenever what' behind past ++
    if d.frame = behind then [what' d] else []

section

variable {α : Type} {what what' : Config σ → α}

theorem Moves.follows (hin : Frame.IsIn p ⟨function, b, inst :: rest⟩)
    (hinst : ∀ (m m' : Machine σ) depth callee, m.execute p host depth inst ≠ .enter callee m')
    (hsame : ∀ c d v, Moves p host c v d → c.frame = ⟨function, b, inst :: rest⟩ →
      what c = what' d)
    {past : List (Config σ)} {c d : Config σ} {v : Option Visit}
    (hframes : ∀ f ∈ c.frames, f.IsIn p) (h : Moves p host c v d)
    (hc : Follows what what' past c ⟨function, b, inst :: rest⟩ ⟨function, b, rest⟩) :
    Follows what what' (past ++ [c]) d ⟨function, b, inst :: rest⟩ ⟨function, b, rest⟩ := by
  obtain ⟨hcallers, hwhat⟩ := hc
  have hcurrent := hframes c.frame List.mem_cons_self
  refine ⟨h.not_mem_callers hin hinst hframes hcallers, ?_⟩
  have hstep := hsame c d v h
  rw [whenever_append_singleton, whenever_append_singleton, hwhat]
  cases h with
  | @proceed m m' g x i r callers he =>
      simp only [hin.behind_iff hcurrent]
      by_cases hbefore : (⟨g, x, i :: r⟩ : Frame) = ⟨function, b, inst :: rest⟩
      · simp only [if_pos hbefore, hstep hbefore]
      · simp [hbefore]
  | @enter m m' g callee x i r callers frame he hf =>
      have hbefore : (⟨g, x, i :: r⟩ : Frame) ≠ ⟨function, b, inst :: rest⟩ := by
        intro hbefore
        obtain ⟨-, -, hinsts⟩ := Frame.mk.inj hbefore
        obtain ⟨rfl, -⟩ := List.cons.inj hinsts
        exact hinst m m' _ callee he
      simp [hin.ne_start hf, hbefore]
  | @follow m g x callers frame visit he hf => simp [hin.ne_start hf]
  | @back m g x callers frame he =>
      have hframe : frame ≠ ⟨function, b, rest⟩ := fun heq => hcallers (heq ▸ List.mem_cons_self)
      simp [hframe]

theorem Passes.follows {m : Machine σ} {main : ℕ} {entry : Block}
    (hb : p.block? main 0 = some entry) (hin : Frame.IsIn p ⟨function, b, inst :: rest⟩)
    (hinst : ∀ (m m' : Machine σ) depth callee, m.execute p host depth inst ≠ .enter callee m')
    (hsame : ∀ c d v, Moves p host c v d → c.frame = ⟨function, b, inst :: rest⟩ →
      what c = what' d)
    {vs : List Visit} {n : ℕ} {d : Config σ}
    (h : Passes p host ⟨m, ⟨main, 0, entry.insts⟩, []⟩ vs n d) :
    Follows what what' (trace p host n ⟨m, ⟨main, 0, entry.insts⟩, []⟩) d
      ⟨function, b, inst :: rest⟩ ⟨function, b, rest⟩ := by
  induction h with
  | start =>
      have hstart := hin.ne_start (Program.frameAt_eq_ok_iff.mpr ⟨entry, hb, rfl⟩)
      exact ⟨List.not_mem_nil, by simp [trace, whenever, hstart]⟩
  | @move vs n d e v h hm ih =>
      rw [h.trace_succ hm]
      exact hm.follows hin hinst hsame (h.coherent hb).frames ih

end

end Config

/-! ### Runs that return -/

namespace Program

variable {σ : Type} (p : Program) (host : Host σ) (state : σ)

/-- The configurations that a run comes to, one for each of its steps. -/
def trace (limit : ℕ) : List (Config σ) :=
  match p.start state with
  | .ok c => c.trace p host limit
  | .error _ => []

variable {p host state} {limit : ℕ} {args : List String} {m : Machine σ} {records : List Record}
  {function : ℕ} {b : BlockId} {inst : Inst} {rest : List Inst}

/-- A run comes from the entry of `main` to all that stands in its trace. -/
theorem exists_passes_of_trace {past rest : List (Config σ)} {c : Config σ}
    (h : p.trace host state limit = past ++ c :: rest) :
    ∃ main entry vs, p.block? main 0 = some entry ∧
      Config.Passes p host (.entering p state main entry) vs past.length c ∧
      past = (Config.entering p state main entry).trace p host past.length := by
  unfold trace at h
  cases hstart : p.start state with
  | error failure => simp [hstart] at h
  | ok start =>
      simp only [hstart] at h
      obtain ⟨-, main, entry, -, hb, rfl⟩ := start_eq_ok_iff.mp hstart
      obtain ⟨vs, hp, hpast⟩ := Config.exists_passes_of_trace h
      exact ⟨main, entry, vs, hb, hp, hpast⟩

/-- The last configuration of a run that returns has nothing left and no open calls. -/
theorem exists_trace_eq (h : p.run host state limit args = (m, .ok records)) :
    ∃ main entry vs n d, p.block? main 0 = some entry ∧
      Config.Passes p host (.entering p state main entry) vs n d ∧
      p.trace host state limit = (Config.entering p state main entry).trace p host n ++ [d] ∧
      d.machine = m ∧ d.frame.rest = [] ∧ d.callers = [] ∧
      p.visits host state limit = ⟨main, 0, none⟩ :: vs := by
  obtain ⟨c, hstart, hrun, -⟩ := run_eq_ok_iff.mp h
  obtain ⟨-, main, entry, -, hb, rfl⟩ := start_eq_ok_iff.mp hstart
  obtain ⟨n, d, hn, hp, hd⟩ := Config.exists_passes_of_run_eq_ok hrun
  obtain ⟨hm, hrest, hcallers, -⟩ := Config.step_eq_finished_iff.mp hd
  refine ⟨main, entry, _, n, d, hb, hp, ?_, hm, hrest, hcallers, ?_⟩
  · rw [trace, hstart]
    exact hp.trace_eq hd hn
  · rw [visits, hstart]

/-- Every instruction that a run comes to is done, whatever functions it calls. -/
theorem countP_trace_behind (h : p.run host state limit args = (m, .ok records))
    (hin : Frame.IsIn p ⟨function, b, inst :: rest⟩) :
    (p.trace host state limit).countP (·.frame = ⟨function, b, inst :: rest⟩) =
      (p.trace host state limit).countP (·.frame = ⟨function, b, rest⟩) := by
  obtain ⟨main, entry, vs, n, d, hb, hp, htrace, -, hrest, hcallers, -⟩ := exists_trace_eq h
  have hcount := hp.countP_behind hb hin
  have hlast : d.frame ≠ ⟨function, b, inst :: rest⟩ := by
    intro heq
    rw [heq] at hrest
    cases hrest
  rw [htrace, List.countP_append, List.countP_append, hcount]
  simp [Config.frames, hcallers, hlast, List.count_singleton, List.countP_singleton]

/-- Whatever instructions a run comes to, it comes as often behind them. -/
theorem countP_trace_append (h : p.run host state limit args = (m, .ok records))
    (insts : List Inst) (hin : Frame.IsIn p ⟨function, b, insts ++ rest⟩) :
    (p.trace host state limit).countP (·.frame = ⟨function, b, insts ++ rest⟩) =
      (p.trace host state limit).countP (·.frame = ⟨function, b, rest⟩) := by
  induction insts with
  | nil => rfl
  | cons inst insts ih =>
      rw [List.cons_append] at hin ⊢
      rw [countP_trace_behind h hin, ih hin.tail]

/-- A run that returns comes to the end of a block as often as it executes the block. -/
theorem length_seen_end (h : p.run host state limit args = (m, .ok records)) (function : ℕ)
    (b : BlockId) : (seen ⟨function, b, []⟩ (p.trace host state limit)).length =
      executions (p.visits host state limit) function b := by
  obtain ⟨main, entry, vs, n, d, -, hp, htrace, -, hrest, hcallers, hvisits⟩ := exists_trace_eq h
  have hlast : standing d.frames function (· = b) =
      [d].countP (·.frame = ⟨function, b, []⟩) := by
    obtain ⟨m, ⟨g, x, rest⟩, callers⟩ := d
    obtain rfl := hrest
    obtain rfl := hcallers
    simp [standing, Config.frames, List.countP_cons]
  rw [length_seen, htrace, List.countP_append, ← hlast, hp.countP_end, hvisits]

/-- A run that returns finds behind an instruction that enters no function what this made of what it
found there. -/
theorem whenever_trace_behind {α : Type} {what what' : Config σ → α}
    (h : p.run host state limit args = (m, .ok records))
    (hin : Frame.IsIn p ⟨function, b, inst :: rest⟩)
    (hinst : ∀ (m m' : Machine σ) depth callee, m.execute p host depth inst ≠ .enter callee m')
    (hsame : ∀ c d v, Config.Moves p host c v d → c.frame = ⟨function, b, inst :: rest⟩ →
      what c = what' d) :
    whenever what ⟨function, b, inst :: rest⟩ (p.trace host state limit) =
      whenever what' ⟨function, b, rest⟩ (p.trace host state limit) := by
  obtain ⟨main, entry, vs, n, d, hb, hp, htrace, -, hrest, -⟩ := exists_trace_eq h
  have hlast : d.frame ≠ ⟨function, b, inst :: rest⟩ := by
    intro heq
    rw [heq] at hrest
    cases hrest
  rw [htrace, whenever_append_singleton, whenever_append_singleton, if_neg hlast,
    (hp.follows hb hin hinst hsame).same, List.append_nil]

/-- Behind added instructions a run finds what they keep as it was before them. -/
theorem whenever_trace_append {α : Type} (what : Machine σ → α)
    (h : p.run host state limit args = (m, .ok records)) {added : List Inst}
    (hin : Frame.IsIn p ⟨function, b, added ++ rest⟩)
    (hadded : ∀ inst ∈ added, inst.isOriginal = false ∧ ∀ (m m' : Machine σ) depth,
      m.execute p host depth inst = .proceed m' → what m' = what m) :
    whenever (what ·.machine) ⟨function, b, added ++ rest⟩ (p.trace host state limit) =
      whenever (what ·.machine) ⟨function, b, rest⟩ (p.trace host state limit) := by
  induction added with
  | nil => rfl
  | cons inst added ih =>
      rw [List.forall_mem_cons] at hadded
      obtain ⟨⟨hinst, hkept⟩, hadded⟩ := hadded
      rw [List.cons_append] at hin ⊢
      rw [← ih hin.tail hadded]
      refine whenever_trace_behind h hin (fun _ _ _ _ => Machine.execute_ne_enter hinst) ?_
      intro c d v hm hframe
      have hhead : c.frame.rest.head? = some inst := by
        rw [hframe]
        rfl
      exact (hkept _ _ _ (hm.proceeds hhead hinst)).symm

/-- Added instructions find the variables as they were before them. -/
theorem seen_trace_behind (h : p.run host state limit args = (m, .ok records)) {added : List Inst}
    (hin : Frame.IsIn p ⟨function, b, added ++ rest⟩)
    (hadded : ∀ inst ∈ added, inst.isOriginal = false) :
    seen ⟨function, b, added ++ rest⟩ (p.trace host state limit) =
      seen ⟨function, b, rest⟩ (p.trace host state limit) := by
  rw [seen_eq_whenever, seen_eq_whenever]
  refine whenever_trace_append (·.vars) h hin fun inst hmem =>
    ⟨hadded inst hmem, fun m m' depth he => ?_⟩
  exact (Machine.executes_of_next? (by rw [he]; rfl)).vars_eq (hadded inst hmem)

end Program

end FlowProfile
