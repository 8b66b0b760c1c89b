import FlowProfile.Proofs.Exec.Agreement
import FlowProfile.Proofs.Exec.StepLimit

/-!
# Steps without a fault

An instruction fails with a message, or it overflows a counter. A step comes to a block of the
program or fails with a message, if it starts from one and the program is valid.
-/

namespace FlowProfile

/-! ### Outcomes -/

namespace Outcome

variable {α β : Type}

/-- A result, or a failure that has a message. -/
def Faultless (x : Outcome α) : Prop := ∀ fault, x ≠ .error (.fault fault)

theorem Faultless.ok (a : α) : Faultless (.ok a) := nofun

theorem Faultless.fail (cause : Cause) : (Outcome.fail cause : Outcome α).Faultless := nofun

theorem Faultless.error {failure : Failure} (h : Faultless (.error failure : Outcome α)) :
    Faultless (.error failure : Outcome β) :=
  fun fault hfault => h fault (congrArg _ (Except.error.inj hfault))

theorem Faultless.bind {x : Outcome α} {k : α → Outcome β} (hx : x.Faultless)
    (hk : ∀ a, x = .ok a → (k a).Faultless) : (x >>= k).Faultless := by
  cases x with
  | ok a => exact hk a rfl
  | error failure => exact hx.error

theorem Faultless.ofOption (cause : Cause) (x : Option α) : (ofOption cause x).Faultless := by
  cases x with
  | none => exact .fail cause
  | some a => exact .ok a

theorem Faultless.mapM {f : α → Outcome β} (hf : ∀ a, (f a).Faultless) (xs : List α) :
    (xs.mapM f).Faultless := by
  induction xs with
  | nil => exact .ok []
  | cons x xs ih =>
      rw [List.mapM_cons]
      exact (hf x).bind fun _ _ => ih.bind fun _ _ => .ok _

end Outcome

open Outcome (Faultless)

theorem Variables.get_faultless (vars : Variables) (o : Operand) : (vars.get o).Faultless := by
  cases o with
  | const value => exact .ok value
  | var name => exact .ok _
  | global name => exact .fail _

theorem compute_faultless (vars : Variables) (opcode : String) (operands : List Operand) :
    (compute vars opcode operands).Faultless := by
  unfold compute
  extract_lets arg binary test
  have harg : ∀ i, (arg i).Faultless := by
    intro i
    unfold arg
    split
    · exact vars.get_faultless _
    · exact .fail _
  have hbinary : ∀ f, (binary f).Faultless :=
    fun f => (harg 0).bind fun _ _ => (harg 1).bind fun _ _ => .ok _
  split
  · exact (harg 0).bind fun _ _ => .ok _
  all_goals first | exact hbinary _ | exact .ok none

theorem Callee.resolve_faultless (p : Program) (vars : Variables) (callee : Callee) :
    (callee.resolve p vars).Faultless := by
  cases callee with
  | direct name => exact .ok name
  | indirect target =>
      refine (vars.get_faultless target).bind fun index _ => ?_
      split
      · exact .ok _
      · exact .fail _

theorem registered_faultless (callee : String) (args : List Operand) :
    (registered callee args).Faultless := by
  refine .mapM (fun o => ?_) args
  cases o with
  | global name => exact .ok name
  | const value => exact .fail _
  | var name => exact .fail _

namespace Counters

variable (cs : Counters) (name : String) (slot : ℕ)

theorem u64Slot_faultless : (cs.u64Slot name slot).Faultless := by
  unfold u64Slot
  split
  · exact .ofOption _ _
  · exact .fail _

theorem i32Slot_faultless : (cs.i32Slot name slot).Faultless := by
  unfold i32Slot
  split
  · exact .ofOption _ _
  · exact .fail _

theorem f64Slot_faultless : (cs.f64Slot name slot).Faultless := by
  unfold f64Slot
  split
  · exact .ofOption _ _
  · exact .fail _

end Counters

/-! ### Instructions -/

/-- A host whose answers are results, or errors that have a message. -/
def Host.Faultless {σ : Type} (host : Host σ) : Prop :=
  ∀ state callee args vars, (host.call state callee args vars).2.Faultless

theorem Variables.set_faultless (vars : Variables) (o : Operand) (value : Int64) :
    (vars.set o value).Faultless := by
  cases o with
  | var name => exact .ok _
  | const value => exact .fail _
  | global name => exact .fail _

theorem MpiProcess.host_faultless : host.Faultless := by
  intro p callee args vars
  change (p.call callee args vars).2.Faultless
  unfold call
  cases Comm.Operation.lookup? callee with
  | none => exact .ok vars
  | some op =>
      dsimp only
      split
      · exact .ok vars
      · split
        · exact Variables.set_faultless _ _ _
        · exact .fail _

/-- The slot that an instruction adds one to. -/
def Inst.counts? : Inst → Option (String × ℕ)
  | .increment counters slot | .accumulate counters slot _ _ => some (counters, slot)
  | _ => none

/-- The effect goes on, or fails with a message. -/
def Effect.Faultless {σ : Type} (e : Effect σ) : Prop := ∀ m fault, e ≠ .fail m (.fault fault)

theorem Effect.Faultless.of {σ α : Type} {m : Machine σ} {result : Outcome α}
    {next : α → Effect σ} (hresult : result.Faultless)
    (hnext : ∀ a, result = .ok a → (next a).Faultless) :
    (Effect.of m result next).Faultless := by
  cases result with
  | ok a => exact hnext a rfl
  | error failure =>
      rintro m' fault h
      obtain ⟨-, rfl⟩ := Effect.fail.inj h
      exact hresult fault rfl

namespace Machine

variable {σ : Type} {p : Program} {host : Host σ} {m : Machine σ} {inst : Inst} {depth : ℕ}

theorem call_faultless (hhost : host.Faultless) (callee : Callee) (args : List Operand) :
    (m.call p host depth callee args).Faultless := by
  refine .of (callee.resolve_faultless p m.vars) fun name _ => ?_
  cases Strategy.ofEntryPoint? name with
  | some s => exact .of (registered_faultless name args) fun _ _ => nofun
  | none =>
      dsimp only
      cases p.definition? name with
      | some function =>
          dsimp only
          split
          · exact nofun
          · exact nofun
      | none =>
          have hanswer := hhost m.host name args m.vars
          rcases hc : host.call m.host name args m.vars with ⟨state, failure | vars⟩
          · rw [hc] at hanswer
            rintro m' fault h
            dsimp only at h
            obtain ⟨-, rfl⟩ := Effect.fail.inj h
            exact hanswer fault rfl
          · exact nofun

/-- One can be added to a slot if its count is below the greatest. -/
theorem add_one_faultless {name : String} {slot : ℕ} {n : UInt64}
    (hroom : m.counters.count name slot + 1 < 2 ^ 64) (hn : m.counters.u64Slot name slot = .ok n) :
    (Count.add n 1).Faultless := by
  rw [Counters.count_of_u64Slot hn] at hroom
  have hadd : Count.add n 1 = .ok (n + 1) := Count.add_eq_ok_iff.mpr ⟨hroom, rfl⟩
  rw [hadd]
  exact .ok _

/-- Only an addition of one can overflow. -/
theorem execute_faultless (hhost : host.Faultless)
    (hroom : ∀ name slot, inst.counts? = some (name, slot) →
      m.counters.count name slot + 1 < 2 ^ 64) : (m.execute p host depth inst).Faultless := by
  cases inst with
  | op opcode dest operands =>
      cases dest with
      | none => exact nofun
      | some dest =>
          refine .of (compute_faultless _ _ _) fun value _ => ?_
          cases value <;> exact nofun
  | call callee args => exact call_faultless hhost callee args
  | increment counters slot =>
      exact .of (Counters.u64Slot_faultless _ _ _) fun n hn =>
        .of (add_one_faultless (hroom counters slot rfl) hn) fun _ _ => nofun
  | store counters slot value =>
      exact .of (Variables.get_faultless _ _) fun _ _ =>
        .of (Counters.i32Slot_faultless _ _ _) fun _ _ => nofun
  | accumulate counters slot count datatype =>
      exact .of (Variables.get_faultless _ _) fun _ _ =>
        .of (Variables.get_faultless _ _) fun _ _ =>
          .of (Counters.u64Slot_faultless _ _ _) fun n hn =>
            .of (add_one_faultless (hroom counters slot rfl) hn) fun _ _ =>
              .of (Counters.u64Slot_faultless _ _ _) fun _ _ => nofun
  | addWeight counters slot value =>
      exact .of (Variables.get_faultless _ _) fun _ _ =>
        .of (Counters.f64Slot_faultless _ _ _) fun _ _ => nofun
  | timerStart => exact nofun
  | timerStop counters slot =>
      unfold execute stopTimer
      cases m.timer with
      | none => exact nofun
      | some start => exact .of (Counters.f64Slot_faultless _ _ _) fun _ _ => nofun

end Machine

/-! ### Steps -/

theorem Failure.outside_ne_fault {failure : Failure} (h : ∀ fault, failure ≠ .fault fault)
    (p : Program) (callers : List Frame) (fault : Fault) :
    failure.outside p callers ≠ .fault fault := by
  cases failure with
  | error contexts cause =>
      obtain ⟨contexts', heq⟩ := outside_error p callers contexts cause
      rw [heq]
      exact nofun
  | fault other => exact absurd rfl (h other)

theorem Terminator.exit_faultless (t : Terminator) (name : String) (vars : Variables) :
    (t.exit name vars).Faultless := by
  cases t with
  | br target => exact .ok _
  | condBr cond thenBlock elseBlock => exact (vars.get_faultless cond).bind fun _ _ => .ok _
  | switch value default cases => exact (vars.get_faultless value).bind fun _ _ => .ok _
  | ret => exact .ok _
  | unreachable => exact .fail _

namespace Program

variable {p : Program} {function : ℕ} {b : BlockId} {block : Block} {vars : Variables}

/-- Control leaves a block by one of its edges. -/
theorem follow_faultless (hb : p.block? function b = some block) :
    (p.follow function b vars).Faultless := by
  obtain ⟨f, hf, hb⟩ := block?_eq_some_iff.mp hb
  have hfunction : p.function function = .ok f := Outcome.get_eq_ok_iff.mpr hf
  simp only [follow, hfunction, Function.block_eq_ok_iff.mpr hb, Outcome.ok_bind]
  refine (block.terminator.exit_faultless f.name vars).bind fun exit hexit => ?_
  cases exit with
  | none => exact .ok none
  | some succ =>
      have hdest := List.getElem?_eq_getElem (Terminator.exit_lt hexit)
      dsimp only
      rw [Outcome.get_eq_ok_iff.mpr hdest]
      exact .ok _

theorem exists_frameAt (hb : p.block? function b = some block) :
    ∃ frame, p.frameAt function b = .ok frame :=
  ⟨_, frameAt_eq_ok_iff.mpr ⟨block, hb, rfl⟩⟩

/-- In a valid program every edge comes to a block. -/
theorem IsValid.exists_frameAt_of_follow (hp : p.IsValid) {visit : Visit}
    (h : p.follow function b vars = .ok (some visit)) :
    ∃ frame, p.frameAt visit.function visit.block = .ok frame := by
  obtain ⟨f, source, succ, dest, hf, hs, -, hd, rfl⟩ := follow_eq_ok_some_iff.mp h
  have hlt := (hp f (List.mem_of_getElem? hf) source (List.mem_of_getElem? hs) dest
    (List.mem_of_getElem? hd)).1
  exact exists_frameAt (block?_eq_some_iff.mpr ⟨f, hf, List.getElem?_eq_getElem hlt⟩)

theorem exists_frameAt_of_definition? {name : String} (h : p.definition? name = some function) :
    ∃ frame, p.frameAt function 0 = .ok frame := by
  obtain ⟨-, hbody⟩ := Option.filter_eq_some_iff.mp h
  cases hf : p.functions[function]? with
  | none => simp [hf] at hbody
  | some f =>
      have hpos : 0 < f.blocks.length := by
        simpa [hf, Function.isDeclaration, List.length_pos_iff] using hbody
      exact exists_frameAt (block?_eq_some_iff.mpr ⟨f, hf, List.getElem?_eq_getElem hpos⟩)

end Program

namespace Config

variable {σ : Type} {p : Program} {host : Host σ} {c : Config σ}

/-- A step from a block of a valid program has no fault if no counter is at its greatest. -/
theorem step_ne_fault (hvalid : p.IsValid) (hhost : host.Faultless) (hin : c.frame.IsIn p)
    (hroom : ∀ inst, c.frame.rest.head? = some inst → ∀ name slot,
      inst.counts? = some (name, slot) → c.machine.counters.count name slot + 1 < 2 ^ 64)
    (m : Machine σ) (fault : Fault) : c.step p host ≠ .failed m (.fault fault) := by
  obtain ⟨m', ⟨function, b, rest⟩, callers⟩ := c
  obtain ⟨block, hb, -⟩ := hin
  cases rest with
  | nil =>
      have hfollow : (p.follow function b m'.vars).Faultless := Program.follow_faultless hb
      intro h
      simp only [step, leave] at h
      cases he : p.follow function b m'.vars with
      | error failure =>
          simp only [he] at h
          refine Failure.outside_ne_fault (fun fault hfault => ?_) p callers fault
            (Step.failed.inj h).2
          exact hfollow fault (he.trans (congrArg _ hfault))
      | ok visit =>
          simp only [he] at h
          cases visit with
          | none => cases callers <;> cases h
          | some visit =>
              obtain ⟨frame, hframe⟩ := hvalid.exists_frameAt_of_follow he
              simp only [hframe] at h
              cases h
  | cons inst rest =>
      have hexecute : (m'.execute p host callers.length inst).Faultless :=
        Machine.execute_faultless hhost (hroom inst rfl)
      intro h
      simp only [step] at h
      cases he : m'.execute p host callers.length inst with
      | proceed next =>
          simp only [he] at h
          cases h
      | enter callee next =>
          obtain ⟨_, _, _, -, -, -, hdefinition⟩ := Machine.exists_call_of_enter he
          obtain ⟨frame, hframe⟩ := Program.exists_frameAt_of_definition? hdefinition
          simp only [he, hframe] at h
          cases h
      | fail next failure =>
          simp only [he] at h
          refine Failure.outside_ne_fault (fun fault hfault => ?_) p
            (⟨function, b, rest⟩ :: callers) fault (Step.failed.inj h).2
          exact hexecute next fault (he.trans (by rw [hfault]))

/-- A run has no fault if none of its steps has one. -/
theorem run_faultless {limit : ℕ}
    (hstep : ∀ vs n d, Passes p host c vs n d → n < limit →
      ∀ m fault, d.step p host ≠ .failed m (.fault fault)) :
    (c.run p host limit limit).2.Faultless := by
  intro fault hrun
  rcases exists_passes p host c limit with ⟨vs, d, hp⟩ | ⟨vs, n, d, r, hn, hp, hr⟩
  · obtain ⟨contexts, hstopped⟩ := Failure.outside_error p d.callers [] (.stepLimit limit)
    rw [(EndsAfter.stopped hp).run_eq, hstopped] at hrun
    cases hrun
  · rw [(hp.result_eq hr hn limit).1] at hrun
    cases hs : d.step p host with
    | running d' => simp [hs, Step.result?] at hr
    | finished m =>
        obtain rfl : (m, .ok ()) = r := by simpa [hs, Step.result?] using hr
        cases hrun
    | failed m failure =>
        obtain rfl : (m, .error failure) = r := by simpa [hs, Step.result?] using hr
        exact hstep vs n d hp hn m fault (hs.trans (congrArg _ (Except.error.inj hrun)))

end Config

namespace Program

variable {σ : Type} (p : Program)

theorem validate_faultless : p.validate.Faultless := by
  unfold validate
  split
  · exact .fail _
  · exact .ok ()

theorem start_faultless (state : σ) : (p.start state).Faultless := by
  refine p.validate_faultless.bind fun _ _ => (Faultless.ofOption _ _).bind fun main _ => ?_
  split
  · exact .ok _
  · exact .fail _

end Program

end FlowProfile
