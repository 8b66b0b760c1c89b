import FlowProfile.Proofs.Exec.EdgeCounts
import FlowProfile.Proofs.Instrument.Registering

/-!
# Registrations of a run

At the end of a run of an instrumented program, each handler is one of a strategy that was
used, with the arrays of its passes, and all arrays have the lengths that were declared.
-/

namespace FlowProfile

/-- The handler that the registration of a strategy adds. -/
def Strategy.handler (s : Strategy) : Strategy × List String := (s, s.passes.map Pass.counters)

theorem registered_globals (callee : String) (names : List String) :
    registered callee (names.map .global) = .ok names := by
  unfold registered
  induction names with
  | nil => rfl
  | cons name names ih =>
      rw [List.map_cons, Outcome.mapM_cons_eq_ok_iff]
      exact ⟨name, names, rfl, ih, rfl⟩

theorem registered_registration {callee : Callee} {args : List Operand} {s : Strategy}
    (h : Inst.call callee args = s.registration) (name : String) :
    callee = .direct s.entryPoint ∧ registered name args = .ok (s.passes.map Pass.counters) := by
  obtain ⟨rfl, rfl⟩ := Inst.call.inj h
  refine ⟨rfl, ?_⟩
  rw [← registered_globals name, List.map_map]
  rfl

namespace Program

/-- No function has the name of an entry point, and no call but a registration calls one. -/
structure Registers (used : Strategy → Prop) (q : Program) : Prop where
  names : ∀ f ∈ q.functions, Strategy.ofEntryPoint? f.name = none
  calls : ∀ name args, q.HasInst (.call (.direct name) args) →
    ∀ s, name = s.entryPoint → used s ∧ Inst.call (.direct name) args = s.registration

theorem Grows.registers_of {values : Operand → Prop} {used : Strategy → Prop} {p q : Program}
    (hnames : ∀ f ∈ p.functions, Strategy.ofEntryPoint? f.name = none)
    (hcalls : ∀ inst, p.HasInst inst → inst.registered? = none) (h : p.Grows values used q) :
    q.Registers used where
  names f hf := by
    obtain ⟨i, hi⟩ := List.mem_iff_getElem?.mp hf
    obtain ⟨own, hown, hedit⟩ := h.edited.exists_left hi
    rw [hedit.name_eq]
    exact hnames own (List.mem_of_getElem? hown)
  calls name args hinst s hname := by
    rcases h.edited.hasInst hinst with ha | hinst
    · obtain ⟨t, ht, hcall⟩ := ha.call_eq
      have hentry : name = t.entryPoint := Callee.direct.inj (Inst.call.inj hcall).1
      obtain rfl := Strategy.entryPoint_injective (hname.symm.trans hentry)
      exact ⟨ht, hcall⟩
    · have hnone : Strategy.ofEntryPoint? name = none := hcalls _ hinst
      rw [hname, Strategy.ofEntryPoint?_entryPoint] at hnone
      cases hnone

theorem Grows.registers {values : Operand → Prop} {used : Strategy → Prop} {p q : Program}
    (hp : p.IsUninstrumented) (h : p.Grows values used q) : q.Registers used :=
  h.registers_of hp.2 fun _ hinst => Inst.registered?_of_isOriginal (hp.1.hasInst hinst)

variable {σ : Type} {used : Strategy → Prop} {q : Program} {host : Host σ} {state : σ}
  {limit : ℕ} {args : List String} {m m' : Machine σ} {records : List Record}

/-- A call that resolves to an entry point is a registration. -/
theorem Registers.of_resolve (h : q.Registers used) {callee : Callee} {operands : List Operand}
    (hinst : q.HasInst (.call callee operands)) {vars : Variables} {name : String} {s : Strategy}
    (hr : callee.resolve q vars = .ok name) (hs : Strategy.ofEntryPoint? name = some s) :
    used s ∧ Inst.call callee operands = s.registration := by
  cases callee with
  | direct target =>
      obtain rfl : target = name := by simpa [Callee.resolve] using hr
      exact h.calls target operands hinst s (Strategy.ofEntryPoint?_eq_some_iff.mp hs)
  | indirect target =>
      simp only [Callee.resolve, Outcome.bind_eq_ok_iff] at hr
      obtain ⟨index, -, hr⟩ := hr
      split at hr
      · rename_i f hf
        obtain rfl : f.name = name := by simpa using hr
        have hmem : f ∈ q.functions := by
          split at hf
          · exact List.mem_of_getElem? hf
          · cases hf
        rw [h.names f hmem] at hs
        cases hs
      · cases hr

/-- Registrations add handlers, and nothing else does. -/
theorem Registers.handlers_executes (h : q.Registers used) {inst : Inst} (hinst : q.HasInst inst)
    (hexec : Machine.Executes q m inst m') :
    m'.handlers = m.handlers ++ inst.registered?.toList.map Strategy.handler := by
  cases hexec with
  | @register callee operands name s globals hr hs hg =>
      obtain ⟨-, hcall⟩ := h.of_resolve hinst hr hs
      rw [(registered_registration hcall name).2] at hg
      obtain rfl := Except.ok.inj hg
      rw [hcall, s.registered?_registration]
      rfl
  | call hr hs state vars =>
      rw [Inst.registered?_of_isOriginal (Inst.isOriginal_call hr hs _)]
      exact (List.append_nil _).symm
  | _ => exact (List.append_nil _).symm

/-- A registered strategy was used. -/
theorem Registers.used_of_registered? (h : q.Registers used) {inst : Inst} (hinst : q.HasInst inst)
    {s : Strategy} (hs : inst.registered? = some s) : used s := by
  obtain ⟨name, hcallee, hname⟩ := Option.bind_eq_some_iff.mp hs
  cases inst with
  | call callee args =>
      cases callee with
      | direct target =>
          obtain rfl : target = name := Option.some.inj hcallee
          exact (h.calls target args hinst s (Strategy.ofEntryPoint?_eq_some_iff.mp hname)).1
      | indirect target => cases hcallee
  | _ => cases hcallee

/-- Each handler is that of a strategy that was used. -/
theorem Registers.handlers_run (h : q.Registers used)
    (hrun : q.run host state limit args = (m, .ok records)) :
    ∀ handler ∈ m.handlers, ∃ s, used s ∧ handler = s.handler := by
  refine invariant_run (fun m => ∀ handler ∈ m.handlers, ∃ s, used s ∧ handler = s.handler)
    ?_ (by simp [Machine.initial]) hrun
  intro inst hinst m m' hexec hkept handler hmem
  rw [h.handlers_executes hinst hexec, List.mem_append, List.mem_map] at hmem
  rcases hmem with hmem | ⟨s, hs, rfl⟩
  · exact hkept handler hmem
  · exact ⟨s, h.used_of_registered? hinst (Option.mem_toList.mp hs), rfl⟩

/-- A strategy has as many handlers as its registrations were run. -/
theorem Registers.measures_handlers (h : q.Registers used) (s : Strategy) :
    Measures q host (Inst.registers s) fun m => m.handlers.countP (·.1 = s) := by
  intro inst hinst m depth m' hm
  have hregisters : inst.registers s = decide (inst.registered? = some s) := by
    simp [Inst.registers, Inst.registered?, Option.bind_eq_some_iff,
      Strategy.ofEntryPoint?_eq_some_iff]
  have hhandlers := h.handlers_executes hinst (Machine.executes_of_next? hm)
  simp only [hhandlers, List.countP_append, hregisters]
  cases inst.registered? with
  | none => simp
  | some t => simp [Strategy.handler, List.countP_singleton]

/-- All arrays keep their type and their length. -/
theorem shape_run (hrun : q.run host state limit args = (m, .ok records)) (name : String) :
    m.counters.shape name = (Counters.initial q).shape name :=
  invariant_run (fun m => m.counters.shape name = (Counters.initial q).shape name)
    (fun _ _ _ _ hexec hkept => (hexec.shape name).trans hkept) rfl hrun

/-- A strategy that is registered at the entry alone has as many handlers as the entry function
has calls. -/
theorem Registers.countP_handlers {splitting : Prop} {added : Inst → Prop} {p : Program}
    {s : Strategy} {main : ℕ} (h : q.Registers used)
    (hregistered : ∀ (i : ℕ) (g : Function), q.functions[i]? = some g → ∀ x,
      g.tally (Inst.registers s) x = if i = main ∧ x = 0 then 1 else 0)
    (hedit : p.Edited splitting added q)
    (hrun : q.run host state limit args = (m, .ok records)) {f : Function}
    (hf : p.functions[main]? = some f) (hdef : f.isDeclaration = false) :
    m.handlers.countP (·.1 = s) = activations (q.visits host state limit) main := by
  obtain ⟨hvalid, -⟩ := exists_passes_of_run_eq_ok hrun
  obtain ⟨g, hg, hfg⟩ := hedit.exists_right hf
  have hlen : 0 < g.blocks.length := by
    have hdecl := hfg.isDeclaration_eq.trans hdef
    simpa [Function.isDeclaration, List.length_pos_iff] using hdecl
  have hmeasure := measure_run (h.measures_handlers s) hrun
  rw [hmeasure, ← executions_zero hvalid (visits_fit hrun) main]
  have honce : ∀ function b block, q.block? function b = some block →
      block.insts.countP (Inst.registers s) = if function = main ∧ b = 0 then 1 else 0 := by
    intro function b block hb
    obtain ⟨g', hg', hblock⟩ := block?_eq_some_iff.mp hb
    have htally := hregistered function g' hg' b
    simpa [Function.tally, hblock] using htally
  have hsum := sum_occurrences
    (block?_eq_some_iff.mpr ⟨g, hg, List.getElem?_eq_getElem hlen⟩) honce
    (q.visits host state limit)
  simpa [Machine.initial] using hsum

end Program

end FlowProfile
