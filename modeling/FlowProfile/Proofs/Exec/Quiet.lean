import FlowProfile.Proofs.Exec.Declared
import FlowProfile.Proofs.Instrument.Instrumented

/-!
# Instructions of instrumentation are quiet

Along every run of an instrumented program its arrays keep their shape, no count is above the
number of steps, and the timer runs wherever it is stopped. Therefore what was added never
fails, and changes neither a variable nor the way of the run.
-/

namespace FlowProfile

/-! ### What holds of a machine -/

theorem Strategy.comm_of_mem {s : Strategy} {counters : String} (h : .comm counters ∈ s.passes) :
    .comm counters ∈ comm.passes := by
  cases s <;> simp [passes] at h ⊢
  exact h

theorem Strategy.not_comm_of_edges {s : Strategy} {counters : String}
    (h : .edges counters ∈ s.passes) : .comm counters ∉ comm.passes := by
  cases s <;> simp [passes] at h ⊢
  all_goals simp [h]

/-- A slot of a pass that counts. Every other slot of the pass for payloads holds bytes. -/
def Program.HoldsCount (q : Program) (name : String) (slot : ℕ) : Prop :=
  (∃ (pass : Pass) (len : ℕ), q.Declares (pass.global len) ∧ pass.counters = name) ∧
    (.comm name ∈ Strategy.comm.passes → 2 ∣ slot)

/-- Whatever counts in the program was added by the strategies, and so was what registers them. -/
structure Program.CountedBy (values : Operand → Prop) (used : Strategy → Prop) (q : Program) :
    Prop where
  insts : ∀ inst, q.HasInst inst → Inst.Added values used q inst ∨ inst.isOwn = true
  registers : q.Registers used

theorem Program.Instrumented.countedBy {used : Strategy → Prop} {p q : Program}
    (h : p.Instrumented used q) : q.CountedBy (·.isGlobal = false) used where
  insts _ hinst := (h.hasInst hinst).imp_right (·.1)
  registers := h.registers

/-- The machine after at most so many steps of an instrumented program. -/
structure Machine.Ready {σ : Type} (used : Strategy → Prop) (q : Program) (steps : ℕ)
    (m : Machine σ) : Prop where
  shape : ∀ name, m.counters.shape name = (Counters.initial q).shape name
  count : ∀ name slot, q.HoldsCount name slot → m.counters.count name slot ≤ steps
  handlers : ∀ handler ∈ m.handlers, ∃ s, used s ∧ handler = s.handler

namespace Machine

variable {σ : Type} {values : Operand → Prop} {used : Strategy → Prop} {q : Program}
  {host : Host σ} {m m' : Machine σ} {steps : ℕ} {inst : Inst}

theorem Ready.initial (state : σ) : (Machine.initial q state).Ready used q 0 where
  shape _ := rfl
  count name slot h := by
    obtain ⟨⟨pass, len, hdecl, rfl⟩, -⟩ := h
    exact (hdecl.count_initial slot).le
  handlers := by simp [Machine.initial]

/-- A step raises no count by more than one. -/
theorem Executes.count_le (h : q.CountedBy values used) (hinst : q.HasInst inst)
    (hexec : Executes q m inst m') {name : String} {slot : ℕ} (hslot : q.HoldsCount name slot) :
    m'.counters.count name slot ≤ m.counters.count name slot + 1 := by
  cases hexec with
  | @increment counters k n hn hlt =>
      rw [Counters.count_setU64 hn]
      split
      · rename_i heq
        obtain ⟨rfl, rfl⟩ := heq
        rw [Count.toNat_add_one hlt, Counters.count_of_u64Slot hn]
      · exact Nat.le_succ _
  | @accumulate counters k count datatype n old hn hlt hold bytes =>
      have hbytes : ¬(counters = name ∧ k + 1 = slot) := by
        rintro ⟨rfl, rfl⟩
        rcases h.insts _ hinst with ha | hown
        · generalize hadd : Inst.accumulate counters k count datatype = inst at ha
          cases ha with
          | @pass s pass len inst hs hp hg ha =>
              cases ha <;> cases hadd
              have hdvd := hslot.2 (Strategy.comm_of_mem hp)
              omega
          | registration => cases hadd
        · cases hown
      rw [Counters.count_setU64 hold, if_neg hbytes, Counters.count_setU64 hn]
      split
      · rename_i heq
        obtain ⟨rfl, rfl⟩ := heq
        rw [Count.toNat_add_one hlt, Counters.count_of_u64Slot hn]
      · exact Nat.le_succ _
  | store value => simp
  | addWeight sum => simp
  | timerStop state timer sum => simp
  | _ => exact Nat.le_succ _

theorem Ready.executes (h : q.CountedBy values used) (hinst : q.HasInst inst)
    (hexec : Executes q m inst m') (hready : m.Ready used q steps) :
    m'.Ready used q (steps + 1) where
  shape name := (hexec.shape name).trans (hready.shape name)
  count name slot hslot := by
    have hold := hready.count name slot hslot
    have hnew := hexec.count_le h hinst hslot
    omega
  handlers := by
    cases hexec with
    | @register callee operands name s globals hr hs hg =>
        obtain ⟨hused, hcall⟩ := h.registers.of_resolve hinst hr hs
        rw [(registered_registration hcall name).2] at hg
        obtain rfl := Except.ok.inj hg
        intro handler hmem
        rcases List.mem_append.mp hmem with hmem | hmem
        · exact hready.handlers handler hmem
        · exact ⟨s, hused, List.mem_singleton.mp hmem⟩
    | _ => exact hready.handlers

theorem Ready.mono {more : ℕ} (hready : m.Ready used q steps) (hle : steps ≤ more) :
    m.Ready used q more :=
  ⟨hready.shape, fun name slot hslot => (hready.count name slot hslot).trans hle, hready.handlers⟩

theorem Ready.shape_pass (hready : m.Ready used q steps) {pass : Pass} {len : ℕ}
    (hdecl : q.Declares (pass.global len)) :
    m.counters.shape pass.counters = some (pass.type, len) :=
  (hready.shape pass.counters).trans hdecl.shape_initial

/-! ### The timer -/

/-- Where the timer surely runs, the machine has started it. -/
theorem Executes.timer (hexec : Executes q m inst m')
    (h : inst.leavesTimer m.timer.isSome = true) : m'.timer.isSome = true := by
  cases hexec with
  | @register callee operands name s globals hr hs hg =>
      cases callee with
      | direct target => exact (Bool.and_eq_true_iff.mp h).1
      | indirect target => cases h
  | @call callee operands name hr hs state vars =>
      cases callee with
      | direct target => exact (Bool.and_eq_true_iff.mp h).1
      | indirect target => cases h
  | timerStart => rfl
  | timerStop => cases h
  | _ => exact h

/-! ### Quiet instructions -/

theorem exists_get (vars : Variables) {o : Operand} (h : o.isGlobal = false) :
    ∃ value, vars.get o = .ok value := by
  cases o with
  | const value => exact ⟨value, rfl⟩
  | var name => exact ⟨vars.read name, rfl⟩
  | global name => cases h

/-- A counting slot has room for one more step. -/
theorem Ready.exists_slot (hready : m.Ready used q steps) (hsteps : steps + 1 < 2 ^ 64)
    {pass : Pass} {len slot : ℕ} (hg : q.Declares (pass.global len)) (htype : pass.type = .u64)
    (hslot : slot < len) (hcount : .comm pass.counters ∈ Strategy.comm.passes → 2 ∣ slot) :
    ∃ n, m.counters.u64Slot pass.counters slot = .ok n ∧ Count.add n 1 = .ok (n + 1) := by
  have hshape := hready.shape_pass hg
  rw [htype] at hshape
  obtain ⟨n, hn⟩ := Counters.exists_u64Slot hshape hslot
  have hle := hready.count pass.counters slot ⟨⟨pass, len, hg, rfl⟩, hcount⟩
  rw [Counters.count_of_u64Slot hn] at hle
  have hlt : n.toNat + 1 < 2 ^ 64 := by omega
  exact ⟨n, hn, Count.add_eq_ok_iff.mpr ⟨hlt, rfl⟩⟩

/-- What was added goes on, and tells nothing to the program or to its host but the time. -/
theorem Ready.quiet (hready : m.Ready used q steps) (hsteps : steps + 1 < 2 ^ 64)
    (ha : inst.AddedTo used q)
    (htimer : inst.stopsTimer = true → m.timer.isSome = true) (host : Host σ) (depth : ℕ) :
    ∃ m', m.execute q host depth inst = .proceed m' ∧ m'.vars = m.vars ∧
      (m'.host = m.host ∨ m'.host = (host.now m.host).1) := by
  cases ha with
  | @pass s pass len inst hs hp hg ha =>
      have hshape := hready.shape_pass hg
      cases ha with
      | @increment counters slot hslot =>
          obtain ⟨n, hn, hadd⟩ := hready.exists_slot hsteps hg rfl hslot
            fun hmem => absurd hmem (Strategy.not_comm_of_edges hp)
          refine ⟨{ m with counters := m.counters.setU64 counters slot (n + 1) }, ?_, rfl, .inl rfl⟩
          simp only [Pass.counters] at hn
          simp only [execute, increment, hn, Effect.of, hadd]
      | @store counters value hslot hv =>
          obtain ⟨v, hv⟩ := exists_get m.vars hv
          obtain ⟨n, hn⟩ := Counters.exists_i32Slot hshape hslot
          refine ⟨{ m with counters := m.counters.setI32 counters 0 v.toInt32 }, ?_, rfl, .inl rfl⟩
          simp only [Pass.counters] at hn
          simp only [execute, store, hv, Effect.of, hn]
      | @accumulate counters slot count datatype hslot hc hd =>
          obtain ⟨c, hc⟩ := exists_get m.vars hc
          obtain ⟨d, hd⟩ := exists_get m.vars hd
          obtain ⟨n, hn, hadd⟩ := hready.exists_slot hsteps hg rfl (by omega : 2 * slot < len)
            fun _ => Nat.dvd_mul_right 2 slot
          simp only [Pass.counters] at hn
          have hshape' : (m.counters.setU64 counters (2 * slot) (n + 1)).shape counters =
              some (.u64, len) := by
            rw [Counters.shape_setU64]
            exact hshape
          obtain ⟨bytes, hbytes⟩ := Counters.exists_u64Slot hshape' hslot
          refine ⟨{ m with
            counters := (m.counters.setU64 counters (2 * slot) (n + 1)).setU64 counters
              (2 * slot + 1) (Count.saturatingAdd bytes (payloadBytes c d)) }, ?_, rfl, .inl rfl⟩
          simp only [execute, accumulate, hc, hd, hn, Effect.of, hadd, hbytes]
      | timerStart => exact ⟨_, rfl, rfl, .inr rfl⟩
      | @timerStop counters slot hslot =>
          obtain ⟨start, hstart⟩ := Option.isSome_iff_exists.mp (htimer rfl)
          obtain ⟨sum, hsum⟩ := Counters.exists_f64Slot hshape hslot
          simp only [Pass.counters] at hsum
          refine ⟨{ m with
            host := (host.now m.host).1
            timer := none
            counters := m.counters.setF64 counters slot (sum + ((host.now m.host).2 - start)) },
            ?_, rfl, .inr rfl⟩
          simp only [execute, stopTimer, hstart, addTo, hsum, Effect.of]
      | @addWeight counters slot value hslot hv =>
          obtain ⟨v, hv⟩ := exists_get m.vars hv
          obtain ⟨sum, hsum⟩ := Counters.exists_f64Slot hshape hslot
          simp only [Pass.counters] at hsum
          refine ⟨{ m with counters := m.counters.setF64 counters slot (sum + .ofInt64 v) },
            ?_, rfl, .inl rfl⟩
          simp only [execute, hv, addTo, hsum, Effect.of]
  | @registration s hs hg =>
      refine ⟨{ m with handlers := m.handlers ++ [(s, s.passes.map Pass.counters)] }, ?_, rfl,
        .inl rfl⟩
      have hregistered := (registered_registration (s := s) rfl s.entryPoint).2
      simp only [Strategy.registration, execute, call, Callee.resolve, Effect.of,
        Strategy.ofEntryPoint?_entryPoint]
      rw [hregistered]

end Machine

/-- The timer runs wherever it is stopped, in the block of the frame and in all open calls. -/
structure Config.Timed {σ : Type} (c : Config σ) : Prop where
  frame : Paced c.machine.timer.isSome c.frame.rest
  callers : ∀ f ∈ c.callers, Paced false f.rest

namespace Config

variable {σ : Type} {used : Strategy → Prop} {p q : Program} {host : Host σ}

/-- A function that is entered may stop the timer. -/
theorem leavesTimer_of_enter (h : p.Instrumented used q) {m m' : Machine σ} {inst : Inst}
    {depth function : ℕ} (he : m.execute q host depth inst = .enter function m') (on : Bool) :
    inst.leavesTimer on = false := by
  obtain ⟨callee, args, name, rfl, hr, hs, hd⟩ := Machine.exists_call_of_enter he
  cases callee with
  | indirect target => rfl
  | direct target =>
      obtain rfl : target = name := by simpa [Callee.resolve] using hr
      have hop : Comm.Operation.lookup? target = none := by
        cases hop : Comm.Operation.lookup? target with
        | none => rfl
        | some op =>
            rw [h.definition?_eq_none hop] at hd
            cases hd
      simp [Inst.leavesTimer, hs, hop]

theorem Timed.move (h : p.Instrumented used q) {c c' : Config σ} {v : Option Visit}
    (hc : c.Timed) (hm : Moves q host c v c') : c'.Timed := by
  obtain ⟨hframe, hcallers⟩ := hc
  cases hm with
  | @proceed m m' function b inst rest callers he =>
      refine ⟨?_, hcallers⟩
      have hexec : Machine.Executes q m inst m' := Machine.executes_of_next? (by rw [he]; rfl)
      obtain ⟨-, hrest⟩ := hframe
      cases hleaves : inst.leavesTimer m.timer.isSome with
      | true =>
          rw [hexec.timer hleaves]
          exact hleaves ▸ hrest
      | false =>
          rw [hleaves] at hrest
          exact hrest.mono _
  | @enter m m' function callee b inst rest callers frame he hf =>
      obtain ⟨block, hb, rfl⟩ := Program.frameAt_eq_ok_iff.mp hf
      obtain ⟨-, hrest⟩ := hframe
      rw [leavesTimer_of_enter h he] at hrest
      exact ⟨(h.paced _ _ block hb).mono _, List.forall_mem_cons.mpr ⟨hrest, hcallers⟩⟩
  | @follow m function b callers frame visit hfollow hf =>
      obtain ⟨block, hb, rfl⟩ := Program.frameAt_eq_ok_iff.mp hf
      exact ⟨(h.paced _ _ block hb).mono _, hcallers⟩
  | @back m function b callers frame hfollow =>
      obtain ⟨hback, hcallers⟩ := List.forall_mem_cons.mp hcallers
      exact ⟨hback.mono _, hcallers⟩

theorem Passes.ready {values : Operand → Prop} (h : q.CountedBy values used) {state : σ}
    {function : ℕ} {block : Block} (hb : q.block? function 0 = some block) {vs : List Visit} {n : ℕ}
    {c : Config σ} (hpasses : Passes q host (.entering q state function block) vs n c) :
    c.machine.Ready used q n := by
  induction hpasses with
  | start => exact .initial state
  | @move vs n d e v hpasses hm ih =>
      rcases hm.executes with ⟨inst, hinst, hexec⟩ | ⟨-, hsame⟩
      · have hin := Frame.hasInst ((hpasses.coherent hb).frames d.frame List.mem_cons_self) hinst
        exact ih.executes h hin hexec
      · rw [hsame]
        exact ih.mono (Nat.le_succ n)

/-- The invariants of a run of an instrumented program. -/
theorem Passes.ready_timed (h : p.Instrumented used q) {state : σ} {function : ℕ} {block : Block}
    (hb : q.block? function 0 = some block) {vs : List Visit} {n : ℕ} {c : Config σ}
    (hpasses : Passes q host (.entering q state function block) vs n c) :
    c.machine.Ready used q n ∧ c.Timed := by
  refine ⟨hpasses.ready h.countedBy hb, ?_⟩
  induction hpasses with
  | start => exact ⟨(h.paced _ _ block hb).mono _, nofun⟩
  | move _ hm ih => exact ih.move h hm

end Config

end FlowProfile
