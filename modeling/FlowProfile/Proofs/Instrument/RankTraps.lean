import FlowProfile.Proofs.Instrument.PayloadTraps

/-!
# Where the rank is copied

Behind the first call that asks for the rank its second argument is stored, and nothing of the
program itself comes between them, whatever else is inserted. Nothing else is stored in the array.
Without such a call it is as it was declared.
-/

namespace FlowProfile

/-- Does the instruction store into the array? -/
def Inst.storesTo (counters : String) : Inst → Bool
  | .store name _ _ => name = counters
  | _ => false

theorem Inst.storesTo_of_isOriginal {inst : Inst} (h : inst.isOriginal = true)
    (counters : String) : inst.storesTo counters = false := by
  cases inst with
  | op opcode dest operands => rfl
  | call callee args => rfl
  | _ => cases h

/-- An instruction that is neither of the program itself nor a store into the array. -/
def Inst.IsBeside (counters : String) (inst : Inst) : Prop :=
  inst.isOriginal = false ∧ inst.storesTo counters = false

/-- A call that is not of the program itself is that of an entry point. -/
theorem onlyRegisters_of_isOriginal {added : Inst → Prop}
    (h : ∀ inst, added inst → inst.isOriginal = false) : OnlyRegisters added := by
  intro callee args ha
  have hcall := h _ ha
  cases callee with
  | indirect target => cases hcall
  | direct name =>
      cases hs : Strategy.ofEntryPoint? name with
      | none => simp [Inst.isOriginal, Inst.isOwn, Inst.callee?, hs] at hcall
      | some s => exact ⟨s, congrArg Callee.direct (Strategy.ofEntryPoint?_eq_some_iff.mp hs)⟩

/-! ### The pass for the rank -/

theorem Pass.Adds.isBeside {values : Operand → Prop} {len : ℕ} {pass : Pass} {inst : Inst}
    {counters : String} (h : pass.Adds values len inst) (hpass : pass ≠ .rank counters) :
    inst.IsBeside counters := by
  refine ⟨h.isOriginal_eq_false, ?_⟩
  cases h with
  | @store name value hs hv =>
      have hne : name ≠ counters := fun heq => hpass (heq ▸ rfl)
      simpa [Inst.storesTo] using hne
  | _ => rfl

theorem Strategy.isBeside_registration (s : Strategy) (counters : String) :
    s.registration.IsBeside counters := ⟨s.isOriginal_registration, rfl⟩

/-- Each strategy has an array of its own for the rank. -/
theorem Strategy.eq_of_rank {s t : Strategy} {counters : String}
    (hs : Pass.rank counters ∈ s.passes) (ht : Pass.rank counters ∈ t.passes) : s = t := by
  cases s <;> cases t <;> simp_all [passes]

/-- The pass for the rank is the last one of its strategy. -/
theorem Strategy.passes_of_rank {s : Strategy} {counters : String}
    (h : Pass.rank counters ∈ s.passes) :
    ∃ before, s.passes = before ++ [.rank counters] ∧ Pass.rank counters ∉ before := by
  cases s with
  | rank =>
      obtain rfl : counters = "__commprof_rank" := by simpa [passes] using h
      exact ⟨[], rfl, List.not_mem_nil⟩
  | edgeRank =>
      obtain rfl : counters = "__commprof_edge_rank_ranks" := by simpa [passes] using h
      exact ⟨[.edges "__commprof_edge_rank_counters"], rfl, by simp⟩
  | time =>
      obtain rfl : counters = "__commprof_time_ranks" := by simpa [passes] using h
      exact ⟨[.time "__commprof_time_counters"], rfl, by simp⟩
  | _ => simp [passes] at h

theorem Inst.Added.isBeside {values : Operand → Prop} {used : Strategy → Prop} {p : Program}
    {inst : Inst} {s : Strategy} {counters : String} (h : Inst.Added values used p inst)
    (hrank : Pass.rank counters ∈ s.passes) (hused : ¬used s) : inst.IsBeside counters := by
  cases h with
  | @pass t pass len inst ht hp hg ha =>
      refine ha.isBeside ?_
      rintro rfl
      exact hused (Strategy.eq_of_rank hp hrank ▸ ht)
  | @registration t ht hg => exact t.isBeside_registration counters

namespace Program

variable {splitting : Prop} {added : Inst → Prop} {p q r : Program} {counters : String}
  {c : CallSite} {value : Operand}

/-- Whatever is added to a program, the first call that asks for the rank is the same. -/
theorem Edited.rel_rankQuery? (hvalid : p.IsValid) (hadd : OnlyRegisters added)
    (h : p.Edited splitting added q) :
    Option.Rel (SameCall added p q) p.rankQuery? q.rankQuery? := by
  have hplaceless : Placeless (Option.guard CallSite.asksRank) :=
    fun c d hcallee _ => by simp [Option.isSome_guard, CallSite.asksRank, hcallee]
  have hsites := h.sites hplaceless
    (fun c s hc => by simp [Option.guard, CallSite.asksRank, hc, Strategy.isRankQuery_entryPoint])
    hvalid hadd
  have hfirst : ∀ p : Program, p.rankQuery? =
      (p.callSites.filterMap (Option.guard CallSite.asksRank)).head? := by
    intro p
    rw [List.filterMap_eq_filter, List.head?_filter]
    rfl
  rw [hfirst p, hfirst q]
  generalize p.callSites.filterMap _ = sites at hsites
  generalize q.callSites.filterMap _ = sites' at hsites
  cases hsites with
  | nil => exact .none
  | cons hsame _ =>
      obtain ⟨c, d, hcall, -, hc, hd⟩ := hsame
      obtain ⟨rfl, -⟩ := Option.guard_eq_some_iff.mp hc
      obtain ⟨rfl, -⟩ := Option.guard_eq_some_iff.mp hd
      exact .some hcall

/-- The instructions of the program from a call on. -/
def fromCall (p : Program) (c : CallSite) : List Inst :=
  ((p.block? c.function c.block).map (·.insts.drop c.inst)).getD []

/-- A value is stored behind a call, and nothing else is stored in the array. -/
structure Stores (q : Program) (counters : String) (c : CallSite) (value : Operand)
    (own : List Inst) : Prop where
  place : q.TrappedAt c.function c.block (.store counters 0 value) own
  once : q.Once (Inst.storesTo counters) c.function c.block

theorem Stores.edited {own : List Inst} (h : q.Stores counters c value own)
    (hedit : q.Edited splitting (Inst.IsBeside counters) r) : r.Stores counters c value own where
  place := h.place.edited hedit fun _ ha => ha.1
  once := h.once.edited hedit fun _ ha => ha.2

/-- At first nothing is stored. -/
theorem IsOriginal.never_stores (hp : p.IsOriginal)
    (hedit : p.Edited splitting (Inst.IsBeside counters) q) :
    q.Never (Inst.storesTo counters) := by
  refine Never.edited (fun i f hf x => ?_) hedit fun _ ha => ha.2
  exact tally_eq_zero hf (fun _ hinst => Inst.storesTo_of_isOriginal (hp.hasInst hinst) counters) x

theorem trapRank_stores (hvalid : p.IsValid) (hp : p.IsOriginal)
    (hedit : p.Edited splitting (Inst.IsBeside counters) q) (hc : p.rankQuery? = some c)
    (hvalue : c.args[1]? = some value) (h : q.trapRank counters = .ok r) :
    r.Stores counters c value (p.fromCall c) := by
  have hrel := hedit.rel_rankQuery? hvalid (onlyRegisters_of_isOriginal fun _ ha => ha.1)
  rw [hc] at hrel
  cases hq : q.rankQuery? with
  | none =>
      rw [hq] at hrel
      cases hrel
  | some d =>
      rw [hq] at hrel
      cases hrel with
      | some hcall =>
          obtain ⟨block, -, hb, -, hd, -⟩ := id hcall
          have hown : p.fromCall c = block.insts.drop c.inst := by rw [fromCall, hb]; rfl
          have hplace := hcall.callAt hp (fun _ ha => ha.1) hb
          have hdvalue : d.args[1]? = some value := by rw [hd]; exact hvalue
          simp only [trapRank, Outcome.bind_eq_ok_iff, declare_eq_ok_iff, hq, hdvalue] at h
          obtain ⟨_, ⟨-, rfl⟩, h⟩ := h
          obtain ⟨rfl, block', hb', hi⟩ := update_insertAt h
          have hfunction : c.function = d.function := by rw [hd]
          have hblock : c.block = d.block := by rw [hd]
          constructor
          · rw [hown, hfunction, hblock]
            exact CallAt.trap hplace rfl
          · rw [hfunction, hblock]
            exact Never.insert (hp.never_stores hedit) hb' hi (by simp [Inst.storesTo])

theorem trapRank_never (hvalid : p.IsValid) (hp : p.IsOriginal)
    (hedit : p.Edited splitting (Inst.IsBeside counters) q)
    (hnone : ∀ c, p.rankQuery? = some c → c.args[1]? = none) (h : q.trapRank counters = .ok r) :
    r.Never (Inst.storesTo counters) := by
  have hrel := hedit.rel_rankQuery? hvalid (onlyRegisters_of_isOriginal fun _ ha => ha.1)
  simp only [trapRank, Outcome.bind_eq_ok_iff, declare_eq_ok_iff] at h
  obtain ⟨_, ⟨-, rfl⟩, h⟩ := h
  cases hq : q.rankQuery? with
  | none =>
      simp only [hq, Outcome.pure_eq_ok_iff] at h
      exact h ▸ hp.never_stores hedit
  | some d =>
      rw [hq] at hrel
      cases hp' : p.rankQuery? with
      | none =>
          rw [hp'] at hrel
          cases hrel
      | some c =>
          rw [hp'] at hrel
          cases hrel with
          | some hcall =>
              obtain ⟨-, -, -, -, hd, -⟩ := hcall
              have hdvalue : d.args[1]? = none := by rw [hd]; exact hnone c hp'
              simp only [hq, hdvalue, Outcome.pure_eq_ok_iff] at h
              exact h ▸ hp.never_stores hedit

end Program

/-! ### All strategies -/

namespace Instrumenter

variable {ins : Instrumenter} {blocks : List ℕ} {p q : Program} {main : ℕ} {s : Strategy}
  {counters : String} {c : CallSite} {value : Operand}

/-- The pass for the rank is one of many, and the others store nothing in its array. -/
theorem applyAll_ranked (hblocks : blocks.length = p.functions.length) (hs : s ∈ ins.strategies)
    (hrank : Pass.rank counters ∈ s.passes) (h : ins.applyAll blocks main p = .ok q) :
    ∃ before behind, p.Edited True (Inst.IsBeside counters) before ∧
      before.trapRank counters = .ok behind ∧
      behind.Edited True (Inst.IsBeside counters) q := by
  obtain ⟨first, second, hfirst, hsecond, hrest⟩ :=
    applyAll_split hblocks p.copies_true (fun _ _ => trivial) hs h
  have hbeside : ∀ {r inst}, Inst.Added (fun _ => True)
      (fun t => t ∈ ins.strategies ∧ t ≠ s) r inst → inst.IsBeside counters :=
    fun ha => ha.isBeside hrank fun hused => hused.2 rfl
  obtain ⟨passes, hpasses, hother⟩ := Strategy.passes_of_rank hrank
  simp only [apply, hpasses, List.foldlM_append, List.foldlM_cons, List.foldlM_nil,
    Outcome.bind_eq_ok_iff, Outcome.pure_eq_ok_iff] at hsecond
  obtain ⟨_, ⟨before, hbefore, behind, hbehind, rfl⟩, hregister⟩ := hsecond
  have hfirst : p.Edited True (Inst.IsBeside counters) first :=
    hfirst.edited.mono (fun _ => trivial) fun _ => hbeside
  have hkept : blocks.length = before.functions.length ∧
      p.Edited True (Inst.IsBeside counters) before := by
    refine Outcome.foldlM_invariant
      (fun r => blocks.length = r.functions.length ∧ p.Edited True (Inst.IsBeside counters) r)
      ?_ ⟨hblocks.trans hfirst.length_eq.symm, hfirst⟩ hbefore
    rintro pass hpass r r' ⟨hlen, hedit⟩ hr
    obtain ⟨-, -, hpassEdit⟩ := pass_spec hlen r.copies_true (fun _ _ => trivial) hr
    refine ⟨hlen.trans hpassEdit.length_eq.symm, hedit.trans ?_⟩
    exact hpassEdit.mono (fun _ => trivial) fun _ ha => ha.isBeside fun heq => hother (heq ▸ hpass)
  obtain ⟨-, hregisterEdit⟩ := Program.update_insertAtStart_edited hregister
  refine ⟨before, behind, hkept.2, hbehind, ?_⟩
  refine (hregisterEdit.mono False.elim ?_).trans
    (hrest.edited.mono (fun _ => trivial) fun _ => hbeside)
  rintro inst rfl
  exact s.isBeside_registration counters

/-- Whatever other strategies are used, the rank is stored behind the first call of the plain
program that asks for it. -/
theorem applyAll_stores (hvalid : p.IsValid) (hp : p.IsOriginal) (hs : s ∈ ins.strategies)
    (hrank : Pass.rank counters ∈ s.passes) (hc : p.rankQuery? = some c)
    (hvalue : c.args[1]? = some value) (h : ins.applyAll p.blockCounts main p = .ok q) :
    q.Stores counters c value (p.fromCall c) := by
  obtain ⟨before, behind, hbefore, htrap, hbehind⟩ :=
    applyAll_ranked (List.length_map ..) hs hrank h
  exact (Program.trapRank_stores hvalid hp hbefore hc hvalue htrap).edited hbehind

/-- Without a call that tells the rank nothing is stored. -/
theorem applyAll_never (hvalid : p.IsValid) (hp : p.IsOriginal) (hs : s ∈ ins.strategies)
    (hrank : Pass.rank counters ∈ s.passes)
    (hnone : ∀ c, p.rankQuery? = some c → c.args[1]? = none)
    (h : ins.applyAll p.blockCounts main p = .ok q) : q.Never (Inst.storesTo counters) := by
  obtain ⟨before, behind, hbefore, htrap, hbehind⟩ :=
    applyAll_ranked (List.length_map ..) hs hrank h
  exact (Program.trapRank_never hvalid hp hbefore hnone htrap).edited hbehind fun _ ha => ha.2

end Instrumenter

end FlowProfile
