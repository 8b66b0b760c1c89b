import FlowProfile.Proofs.Exec.Payloads
import FlowProfile.Proofs.Instrument.Calls
import FlowProfile.Proofs.Instrument.Timing

/-!
# Where payloads are counted

The instruction that counts a call and its payload stands behind the call, and nothing of the
program itself comes between them, whatever else is inserted. No other instruction changes the two
slots of the call.
-/

namespace FlowProfile

/-! ### The trap in a block -/

/-- The trap stands behind the call with which the given instructions of the program begin. Only
added instructions come between. -/
def Trapped (trap : Inst) (own insts : List Inst) : Prop :=
  ∃ call between after, call :: (between ++ trap :: after) <:+ insts ∧ call.isOriginal = true ∧
    (∀ inst ∈ between, inst.isOriginal = false) ∧
    (call :: (between ++ trap :: after)).filter Inst.isOriginal = own

theorem Trapped.insertIdx {trap inst : Inst} {own insts : List Inst} (h : Trapped trap own insts)
    (hinst : inst.isOriginal = false) (i : ℕ) : Trapped trap own (insts.insertIdx i inst) := by
  obtain ⟨call, between, after, ⟨before, rfl⟩, hcall, hbetween, hown⟩ := h
  rcases Nat.lt_or_ge before.length i with hi | hi
  · obtain ⟨j, rfl⟩ : ∃ j, i = before.length + (j + 1) := ⟨i - before.length - 1, by omega⟩
    rw [← filter_insertIdx hinst _ (j + 1), List.insertIdx_succ_cons] at hown
    rw [insertIdx_append_right, List.insertIdx_succ_cons]
    rcases Nat.lt_or_ge between.length j with hj | hj
    · obtain ⟨k, rfl⟩ : ∃ k, j = between.length + (k + 1) := ⟨j - between.length - 1, by omega⟩
      rw [insertIdx_append_right, List.insertIdx_succ_cons] at hown ⊢
      exact ⟨call, between, after.insertIdx k inst, List.suffix_append .., hcall, hbetween, hown⟩
    · rw [insertIdx_append_left between _ inst hj] at hown ⊢
      refine ⟨call, between.insertIdx j inst, after, List.suffix_append .., hcall, ?_, hown⟩
      intro inst' hmem
      rcases List.eq_or_mem_of_mem_insertIdx hmem with rfl | hmem
      · exact hinst
      · exact hbetween inst' hmem
  · rw [insertIdx_append_left before _ inst hi]
    exact ⟨call, between, after, List.suffix_append .., hcall, hbetween, hown⟩

/-! ### The trap in a program -/

namespace Program

variable {splitting : Prop} {added : Inst → Prop} {p q r : Program} {counters : String} {slot : ℕ}
  {s t : Comm.PayloadSite} {own : List Inst}

/-- A block has the trap behind a call. -/
def TrappedAt (p : Program) (function : ℕ) (b : BlockId) (trap : Inst) (own : List Inst) : Prop :=
  ∃ block, p.block? function b = some block ∧ Trapped trap own block.insts

theorem TrappedAt.edited {function : ℕ} {b : BlockId} {trap : Inst}
    (h : p.TrappedAt function b trap own) (hedit : p.Edited splitting added q)
    (hadd : ∀ inst, added inst → inst.isOriginal = false) : q.TrappedAt function b trap own := by
  obtain ⟨block, hb, htrapped⟩ := h
  exact hedit.block_insts (Trapped trap own)
    (fun _ i inst ha hinsts => hinsts.insertIdx (hadd inst ha) i) hb htrapped

/-- The trap is inserted right behind the call. -/
theorem CallAt.trap {function i : ℕ} {b : BlockId} {trap : Inst} (h : p.CallAt function b i own)
    (htrap : trap.isOriginal = false) :
    (p.insert function b (i + 1) trap).TrappedAt function b trap own := by
  obtain ⟨block, before, call, after, hb, hinsts, hlen, hcall, hown⟩ := h
  refine ⟨_, block?_insert_self hb .., ?_⟩
  rw [hinsts, ← hlen, insertIdx_append_right, List.insertIdx_succ_cons]
  refine ⟨call, [], after, List.suffix_append .., hcall, by simp, ?_⟩
  rw [← hown, List.filter_cons_of_pos hcall, List.filter_cons_of_pos hcall, List.nil_append,
    List.filter_cons_of_neg (by simp [htrap])]

/-- The call of the site is followed by what counts it, in two slots of its own. -/
structure Traps (q : Program) (counters : String) (slot : ℕ) (s : Comm.PayloadSite)
    (own : List Inst) : Prop where
  place : ∃ block, q.block? s.function s.block = some block ∧
    Trapped (.accumulate counters slot s.count s.datatype) own block.insts
  once : q.Once (Inst.touches counters slot) s.function s.block

/-- The call of a site that is still to be trapped, and two slots that nothing changes yet. -/
structure Lacks (q : Program) (counters : String) (slot : ℕ) (s : Comm.PayloadSite)
    (own : List Inst) : Prop where
  place : q.CallAt s.function s.block s.inst own
  unused : q.Never (Inst.touches counters slot)

theorem Traps.edited (h : q.Traps counters slot s own) (hedit : q.Edited splitting added r)
    (hadd : ∀ inst, added inst → inst.isOriginal = false ∧ inst.touches counters slot = false) :
    r.Traps counters slot s own where
  place := TrappedAt.edited h.place hedit fun inst ha => (hadd inst ha).1
  once := h.once.edited hedit fun inst ha => (hadd inst ha).2

/-- One instruction alone changes the slots of the site. -/
theorem Traps.countsAt (h : q.Traps counters slot s own) {call : Inst} {between after : List Inst}
    (hin : Frame.IsIn q ⟨s.function, s.block, call ::
      (between ++ .accumulate counters slot s.count s.datatype :: after)⟩) :
    q.CountsAt counters slot s.count s.datatype
      ⟨s.function, s.block, .accumulate counters slot s.count s.datatype :: after⟩ where
  accumulates := rfl
  only function b inst rest hother htouches :=
    h.once.frame_eq (hin.suffix ((List.suffix_append between _).trans (List.suffix_cons call _)))
      hother rfl rfl (by simp [Inst.touches]) htouches

/-! ### The pass that traps -/

theorem trapPayload_eq_ok {i : ℕ} (h : trapPayload counters p (s, i) = .ok q) :
    q = p.insert s.function s.block (s.inst + 1)
        (.accumulate counters (2 * i) s.count s.datatype) ∧
      ∃ block, p.block? s.function s.block = some block ∧ s.inst + 1 ≤ block.insts.length := by
  simp only [trapPayload, Outcome.bind_eq_ok_iff, narrow_eq_ok_iff] at h
  obtain ⟨_, ⟨-, rfl⟩, hupdate⟩ := h
  exact update_insertAt hupdate

theorem trapPayload_edit {i : ℕ} (h : trapPayload counters p (s, i) = .ok q) :
    p.Edited False (· = .accumulate counters (2 * i) s.count s.datatype) q ∧
      q = p.insert s.function s.block (s.inst + 1)
        (.accumulate counters (2 * i) s.count s.datatype) := by
  obtain ⟨rfl, block, hb, hi⟩ := trapPayload_eq_ok h
  exact ⟨insert_edited hb hi rfl, rfl⟩

/-- The pairs of slots of two sites are apart. -/
theorem touches_accumulate {i j : ℕ} (hij : j ≠ i) (count datatype : Operand) :
    (Inst.accumulate counters (2 * j) count datatype).touches counters (2 * i) = false := by
  simp only [Inst.touches, true_and, decide_eq_false_iff_not]
  omega

/-- The site's own trap. -/
theorem Lacks.trap {i : ℕ} (h : p.Lacks counters (2 * i) s own)
    (hq : trapPayload counters p (s, i) = .ok q) : q.Traps counters (2 * i) s own := by
  obtain ⟨rfl, _, hb, hi⟩ := trapPayload_eq_ok hq
  exact ⟨h.place.trap rfl, h.unused.insert hb hi (by simp [Inst.touches])⟩

/-- The trap of a later site in its block leaves the call where it is. -/
theorem Lacks.trap_later {i j : ℕ} (h : p.Lacks counters (2 * i) s own) (hij : j ≠ i)
    (hlater : s.function = t.function → s.block = t.block → s.inst < t.inst)
    (hq : trapPayload counters p (t, j) = .ok q) : q.Lacks counters (2 * i) s own := by
  obtain ⟨hedit, rfl⟩ := trapPayload_edit hq
  refine ⟨h.place.insert (fun hfunction hblock => ?_) rfl, h.unused.edited hedit ?_⟩
  · exact Nat.lt_succ_of_lt (hlater hfunction.symm hblock.symm)
  · rintro inst rfl
    exact touches_accumulate hij ..

theorem Traps.trap_earlier {i j : ℕ} (h : p.Traps counters (2 * i) s own) (hij : j ≠ i)
    (hq : trapPayload counters p (t, j) = .ok q) : q.Traps counters (2 * i) s own := by
  refine h.edited (trapPayload_edit hq).1 ?_
  rintro inst rfl
  exact ⟨rfl, touches_accumulate hij ..⟩

/-- Sites are trapped from the last to the first: those behind a site leave its call where it is,
and those before it leave its trap behind the call. -/
theorem Lacks.trap_fold {sites : List Comm.PayloadSite} {i : ℕ} (hs : sites[i]? = some s)
    (h : p.Lacks counters (2 * i) s own)
    (hbefore : sites.Pairwise fun s t =>
      s.function = t.function → s.block = t.block → s.inst < t.inst)
    (hq : sites.zipIdx.reverse.foldlM (trapPayload counters) p = .ok q) :
    q.Traps counters (2 * i) s own := by
  refine foldlM_zipIdx_reverse (·.Lacks counters (2 * i) s own) (·.Traps counters (2 * i) s own)
    hs ?_ (fun _ _ hp hstep => hp.trap hstep) ?_ h hq
  · intro t j ht hij p q hp hstep
    obtain ⟨hi, rfl⟩ := List.getElem?_eq_some_iff.mp hs
    obtain ⟨hj, rfl⟩ := List.getElem?_eq_some_iff.mp ht
    exact hp.trap_later hij.ne' (List.pairwise_iff_getElem.mp hbefore i j hi hj hij) hstep
  · intro t j _ hij p q hp hstep
    exact hp.trap_earlier hij.ne hstep

theorem payloadSites_before (p : Program) : p.payloadSites.Pairwise fun s t =>
    s.function = t.function → s.block = t.block → s.inst < t.inst :=
  Comm.PayloadSite.kind.sites_before p

/-- The instructions of the plain program from a site on. -/
def fromSite (p : Program) (s : Comm.PayloadSite) : List Inst :=
  ((p.block? s.function s.block).map (·.insts.drop s.inst)).getD []

end Program

/-! ### Other instructions -/

theorem Inst.IsPlain.touches_eq_false {inst : Inst} (h : inst.IsPlain) (counters : String)
    (slot : ℕ) : inst.touches counters slot = false := by
  cases inst with
  | op opcode dest operands => rfl
  | call callee args => rfl
  | _ => cases h.1

/-- The array of the calls and their payloads. -/
def payloadCounters : String := "__commprof_comm_counters"

theorem Strategy.passes_comm : Strategy.comm.passes = [.comm payloadCounters] := rfl

/-- Other strategies change other arrays. -/
theorem Inst.Added.touches_eq_false {values : Operand → Prop} {used : Strategy → Prop}
    {p : Program} {inst : Inst} (h : Inst.Added values used p inst) (hused : ¬used .comm)
    (slot : ℕ) : inst.touches payloadCounters slot = false := by
  cases h with
  | @pass s pass len inst hs hp hg ha =>
      cases ha with
      | @increment counters k hk =>
          have hne : counters ≠ payloadCounters := by
            rintro rfl
            cases s <;> simp [Strategy.passes, payloadCounters] at hp
          simp [Inst.touches, hne]
      | accumulate hk hc hd =>
          cases s with
          | comm => exact absurd hs hused
          | _ => simp [Strategy.passes] at hp
      | _ => rfl
  | registration => rfl

/-! ### All strategies -/

namespace Program

variable {splitting : Prop} {added : Inst → Prop} {p q r : Program} {counters : String} {i : ℕ}
  {s : Comm.PayloadSite}

/-- Before the pass nothing is counted at the sites, whatever was added to the plain program. -/
theorem Edited.lacks (hvalid : p.IsValid) (hp : p.IsPlain) (hedit : p.Edited splitting added q)
    (honly : OnlyRegisters added)
    (hadd : ∀ inst, added inst → inst.isOriginal = false ∧
      ∀ slot, inst.touches counters slot = false) (hs : p.payloadSites[i]? = some s) :
    ∃ t, q.payloadSites[i]? = some t ∧ (∃ j, t = { s with inst := j }) ∧
      q.Lacks counters (2 * i) t (p.fromSite s) := by
  obtain ⟨t, c, d, ht, hcall, hc, hd⟩ := hedit.exists_site Comm.PayloadSite.placeless
    (fun _ _ hc => Comm.PayloadSite.ofCall?_registration hc) hvalid honly hs
  obtain ⟨hfunction, hblock, hinst⟩ := Comm.PayloadSite.place_of_ofCall? hc
  obtain ⟨hfunction', hblock', hinst'⟩ := Comm.PayloadSite.place_of_ofCall? hd
  obtain ⟨block, -, hb, -, heq, -⟩ := id hcall
  refine ⟨t, ht, ⟨d.inst, ?_⟩, ?_, ?_⟩
  · have hmoved := Comm.PayloadSite.ofCall?_moved c c.function c.block d.inst
    rw [← heq, hc, ← hfunction, ← hblock] at hmoved
    exact Option.some.inj (hd.symm.trans hmoved)
  · rw [hfunction', hblock', hinst', fromSite, hfunction, hblock, hinst, hb]
    exact hcall.callAt hp.isOriginal (fun inst ha => (hadd inst ha).1) hb
  · refine Never.edited ?_ hedit fun inst ha => (hadd inst ha).2 _
    intro j f hf b
    exact tally_eq_zero hf (fun inst hinst => (hp.hasInst hinst).touches_eq_false ..) b

/-- The pass traps every site of the plain program, in slots by its number there. -/
theorem trapComm_traps (hvalid : p.IsValid) (hp : p.IsPlain) (hedit : p.Edited splitting added q)
    (honly : OnlyRegisters added)
    (hadd : ∀ inst, added inst → inst.isOriginal = false ∧
      ∀ slot, inst.touches counters slot = false) (hs : p.payloadSites[i]? = some s)
    (h : q.trapComm counters = .ok r) : r.Traps counters (2 * i) s (p.fromSite s) := by
  simp only [trapComm, Outcome.bind_eq_ok_iff, declare_eq_ok_iff] at h
  obtain ⟨len, -, mid, ⟨-, rfl⟩, h⟩ := h
  obtain ⟨t, ht, ⟨j, rfl⟩, hlacks⟩ := hedit.lacks hvalid hp honly hadd hs
  have hdeclared : Lacks { q with globals := q.globals ++ [⟨counters, .u64, len, 0⟩] } counters
      (2 * i) { s with inst := j } (p.fromSite s) := ⟨hlacks.place, hlacks.unused⟩
  have htraps := hdeclared.trap_fold ht q.payloadSites_before h
  exact ⟨htraps.place, htraps.once⟩

end Program

namespace Instrumenter

variable {ins : Instrumenter} {p q : Program} {main i : ℕ} {s : Comm.PayloadSite}

/-- Whatever other strategies are used before and after it, every site of the plain program is
trapped. -/
theorem applyAll_traps (hvalid : p.IsValid) (hp : p.IsPlain) (hs : .comm ∈ ins.strategies)
    (hsite : p.payloadSites[i]? = some s) (h : ins.applyAll p.blockCounts main p = .ok q) :
    q.Traps payloadCounters (2 * i) s (p.fromSite s) := by
  obtain ⟨first, second, hfirst, hsecond, hrest⟩ :=
    applyAll_split (List.length_map ..) p.copies_true (fun _ _ => trivial) hs h
  have hadd : ∀ {r inst}, Inst.Added (fun _ => True)
      (fun t => t ∈ ins.strategies ∧ t ≠ .comm) r inst →
      inst.isOriginal = false ∧ ∀ slot, inst.touches payloadCounters slot = false :=
    fun ha => ⟨ha.isOriginal_eq_false, ha.touches_eq_false fun hused => hused.2 rfl⟩
  simp only [apply, Strategy.passes_comm, List.foldlM_cons, List.foldlM_nil, Outcome.bind_eq_ok_iff,
    Outcome.pure_eq_ok_iff] at hsecond
  obtain ⟨_, ⟨trapped, htrapped, rfl⟩, hregister⟩ := hsecond
  have htraps := Program.trapComm_traps hvalid hp hfirst.edited Inst.Added.onlyRegisters
    (fun _ ha => hadd ha) hsite htrapped
  obtain ⟨-, hregisterEdit⟩ := Program.update_insertAtStart_edited hregister
  have hregistered := htraps.edited hregisterEdit
    fun inst ha => ha ▸ ⟨Strategy.isOriginal_registration .comm, rfl⟩
  exact hregistered.edited hrest.edited fun inst ha => ⟨(hadd ha).1, (hadd ha).2 _⟩

end Instrumenter

end FlowProfile
