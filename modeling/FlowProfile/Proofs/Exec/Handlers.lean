import FlowProfile.Proofs.Exec.Registrations

/-!
# Handlers of a run

Whenever a run enters the entry function, it registers all strategies of the program, before it
calls anything. So the handlers are as many rounds of these as the function was entered.
-/

namespace FlowProfile

namespace Config

variable {σ : Type} {p q : Program} {host : Host σ} {main : ℕ} {ss : List Strategy}
  {used : Strategy → Prop}

/-- The handlers, and the registrations that are left of the block, are whole rounds, one for each
call of the entry function so far. Callers have none left. -/
structure Registered (main : ℕ) (ss : List Strategy) (vs : List Visit) (c : Config σ) : Prop where
  callers : ∀ frame ∈ c.callers, registrations frame.rest = []
  handlers : c.machine.handlers ++ (registrations c.frame.rest).map Strategy.handler =
    (List.replicate (activations vs main) (ss.map Strategy.handler)).flatten

theorem activations_append (vs ws : List Visit) (function : ℕ) :
    activations (vs ++ ws) function = activations vs function + activations ws function :=
  List.countP_append

/-- At the start of a block the registrations of the next round are left, or none. -/
theorem registrations_frameAt (hq : q.RegistersAt main ss) {function : ℕ} {b : BlockId}
    {frame : Frame} (h : q.frameAt function b = .ok frame) :
    registrations frame.rest = if function = main ∧ b = 0 then ss else [] := by
  obtain ⟨block, hb, rfl⟩ := Program.frameAt_eq_ok_iff.mp h
  exact (hq function b block hb).eq

theorem Registered.start (hq : q.RegistersAt main ss) {entry : ℕ} {block : Block}
    (hb : q.block? entry 0 = some block) {m : Machine σ} (hm : m.handlers = []) :
    Registered main ss [⟨entry, 0, none⟩] ⟨m, ⟨entry, 0, block.insts⟩, []⟩ where
  callers := nofun
  handlers := by
    rw [hm, (hq entry 0 block hb).eq]
    by_cases hentry : entry = main
    · simp [hentry, activations]
    · simp [hentry, activations]

theorem Moves.registered (hvalid : q.IsValid) (hregisters : q.Registers used)
    (hq : q.RegistersAt main ss) {vs : List Visit} {c d : Config σ} {v : Option Visit}
    (hframes : ∀ f ∈ c.frames, f.IsIn q) (h : Moves q host c v d) (hc : c.Registered main ss vs) :
    d.Registered main ss (vs ++ v.toList) := by
  obtain ⟨hcallers, hhandlers⟩ := hc
  have hcurrent := hframes c.frame List.mem_cons_self
  cases h with
  | @proceed m m' function b inst rest callers he =>
      refine ⟨hcallers, ?_⟩
      rw [Option.toList_none, List.append_nil, ← hhandlers,
        hregisters.handlers_executes (Frame.hasInst hcurrent rfl)
          (Machine.executes_of_next? (by rw [he]; rfl))]
      cases hinst : inst.registered? <;> simp [registrations, hinst]
  | @enter m m' function callee b inst rest callers frame he hf =>
      have horiginal : inst.isOriginal = true := by
        by_contra hnot
        exact Machine.execute_ne_enter (Bool.eq_false_iff.mpr hnot) he
      have hinst := Inst.registered?_of_isOriginal horiginal
      -- the call stands behind all registrations of its block
      have hrest : registrations rest = [] := by
        obtain ⟨block, hb, hsuffix⟩ := hcurrent
        exact (hq function b block hb).behind hsuffix horiginal
      have hsame : m'.handlers = m.handlers := by
        rw [hregisters.handlers_executes (Frame.hasInst hcurrent rfl)
          (Machine.executes_of_next? (by rw [he]; rfl)), hinst]
        exact List.append_nil _
      have hbefore : m.handlers =
          (List.replicate (activations vs main) (ss.map Strategy.handler)).flatten := by
        rw [registrations, List.filterMap_cons_none hinst] at hhandlers
        rw [← hhandlers, ← registrations, hrest]
        exact (List.append_nil _).symm
      refine ⟨List.forall_mem_cons.mpr ⟨hrest, hcallers⟩, ?_⟩
      rw [hsame, hbefore, registrations_frameAt hq hf, Option.toList_some, activations_append]
      by_cases hcallee : callee = main
      · simp [hcallee, activations, List.replicate_succ']
      · simp [hcallee, activations]
  | @follow m function b callers frame visit he hf =>
      obtain ⟨f, source, succ, dest, hg, hs, -, hd, rfl⟩ := Program.follow_eq_ok_some_iff.mp he
      have hdest : dest ≠ 0 := hvalid.successor_ne_zero
        (Program.block?_eq_some_iff.mpr ⟨f, hg, hs⟩) (List.mem_of_getElem? hd)
      refine ⟨hcallers, ?_⟩
      rw [registrations_frameAt hq hf, if_neg fun hentry => hdest hentry.2, Option.toList_some,
        activations_append]
      simpa [activations, registrations] using hhandlers
  | @back m function b callers frame he =>
      rw [List.forall_mem_cons] at hcallers
      refine ⟨hcallers.2, ?_⟩
      rw [hcallers.1, Option.toList_none, List.append_nil]
      exact hhandlers

theorem Passes.registered (hvalid : q.IsValid) (hregisters : q.Registers used)
    (hq : q.RegistersAt main ss) {m : Machine σ} (hm : m.handlers = []) {entry : ℕ} {block : Block}
    (hb : q.block? entry 0 = some block) {vs : List Visit} {n : ℕ} {d : Config σ}
    (h : Passes q host ⟨m, ⟨entry, 0, block.insts⟩, []⟩ vs n d) :
    d.Registered main ss (⟨entry, 0, none⟩ :: vs) := by
  induction h with
  | start => exact .start hq hb hm
  | move h hm' ih =>
      rw [← List.cons_append]
      exact hm'.registered hvalid hregisters hq (h.coherent hb).frames ih

end Config

/-- At the end of a run all rounds of registrations are complete. -/
theorem Program.Registers.handlers_eq {σ : Type} {q : Program} {host : Host σ} {state : σ}
    {limit : ℕ} {args : List String} {m : Machine σ} {records : List Record} {main : ℕ}
    {ss : List Strategy} {used : Strategy → Prop} (h : q.Registers used)
    (hq : q.RegistersAt main ss) (hrun : q.run host state limit args = (m, .ok records)) :
    m.handlers = (List.replicate (activations (q.visits host state limit) main)
      (ss.map Strategy.handler)).flatten := by
  obtain ⟨hvalid, entry, block, vs, n, d, hb, hvisits, -, hp, hd⟩ :=
    exists_passes_of_run_eq_ok hrun
  obtain ⟨rfl, hrest, -, -⟩ := Config.step_eq_finished_iff.mp hd
  have hhandlers := (hp.registered hvalid h hq rfl hb).handlers
  rw [hrest, ← hvisits] at hhandlers
  rw [← hhandlers]
  exact (List.append_nil _).symm

end FlowProfile
