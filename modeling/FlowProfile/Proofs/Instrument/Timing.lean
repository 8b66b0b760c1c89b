import FlowProfile.Proofs.Instrument.Applied

/-!
# The timer of an instrumented program

The timer is stopped only where it runs. A start stands right before the call that it
measures and the stop after it, and that call runs no block of the program.
-/

namespace FlowProfile

def Inst.stopsTimer : Inst → Bool
  | .timerStop _ _ => true
  | _ => false

/-- Does the timer surely run after the instruction, if `on` tells this of before? A function
that is called may stop it. A recognised operation, or an entry point, is no function. -/
def Inst.leavesTimer (on : Bool) : Inst → Bool
  | .timerStart => true
  | .timerStop _ _ => false
  | .call (.direct name) _ =>
    on && ((Strategy.ofEntryPoint? name).isSome || (Comm.Operation.lookup? name).isSome)
  | .call (.indirect _) _ => false
  | _ => on

/-- The timer runs wherever it is stopped. -/
def Paced : Bool → List Inst → Prop
  | _, [] => True
  | on, inst :: rest => (inst.stopsTimer = true → on = true) ∧ Paced (inst.leavesTimer on) rest

/-- An instruction that neither stops the timer nor lets other blocks run. -/
def Inst.Calm (inst : Inst) : Prop :=
  inst.stopsTimer = false ∧ ∀ on, inst.leavesTimer on = on

/-- An instruction that does not use the timer. -/
def Inst.Timeless (inst : Inst) : Prop :=
  inst.stopsTimer = false ∧ inst.leavesTimer false = false

theorem Inst.Calm.timeless {inst : Inst} (h : inst.Calm) : inst.Timeless := ⟨h.1, h.2 false⟩

theorem Inst.Timeless.call (callee : Callee) (args : List Operand) :
    (Inst.call callee args).Timeless := by
  cases callee <;> exact ⟨rfl, rfl⟩

theorem Inst.IsPlain.timeless {inst : Inst} (h : inst.IsPlain) : inst.Timeless := by
  cases inst with
  | op opcode dest operands => exact ⟨rfl, rfl⟩
  | call callee args => exact .call callee args
  | _ => cases h.1

theorem Inst.calm_of_lookup? {name : String} {op : Comm.Operation} (args : List Operand)
    (h : Comm.Operation.lookup? name = some op) : (Inst.call (.direct name) args).Calm := by
  refine ⟨rfl, fun on => ?_⟩
  simp [leavesTimer, h]

theorem Strategy.calm_registration (s : Strategy) : s.registration.Calm := by
  refine ⟨rfl, fun on => ?_⟩
  simp [registration, Inst.leavesTimer, ofEntryPoint?_entryPoint]

theorem Inst.leavesTimer_mono {inst : Inst} (on : Bool) (h : inst.leavesTimer false = true) :
    inst.leavesTimer on = true := by
  cases inst with
  | call callee args => cases callee <;> simp [leavesTimer] at h
  | timerStart => rfl
  | _ => cases h

namespace Paced

variable {on : Bool} {xs ys : List Inst}

/-- A timer that runs besides does no harm. -/
theorem mono (h : Paced false xs) (on : Bool) : Paced on xs := by
  induction xs generalizing on with
  | nil => trivial
  | cons inst xs ih =>
      obtain ⟨hstop, hrest⟩ := h
      refine ⟨fun hs => absurd (hstop hs) Bool.false_ne_true, ?_⟩
      cases hleaves : inst.leavesTimer false with
      | false => exact ih (hleaves ▸ hrest) _
      | true =>
          rw [Inst.leavesTimer_mono on hleaves]
          exact hleaves ▸ hrest

theorem append_iff (hxs : ∀ inst ∈ xs, inst.Timeless) :
    Paced false (xs ++ ys) ↔ Paced false ys := by
  induction xs with
  | nil => rfl
  | cons inst xs ih =>
      obtain ⟨hstops, hleaves⟩ := hxs inst List.mem_cons_self
      have hrest := ih fun inst' hmem => hxs inst' (List.mem_cons_of_mem inst hmem)
      rw [List.cons_append, Paced, hstops, hleaves, hrest]
      simp

theorem insertIdx {inst : Inst} (hinst : inst.Calm) (h : Paced on xs) (i : ℕ) :
    Paced on (xs.insertIdx i inst) := by
  induction xs generalizing on i with
  | nil =>
      cases i with
      | zero =>
          refine ⟨fun hs => ?_, trivial⟩
          rw [hinst.1] at hs
          cases hs
      | succ i => trivial
  | cons x xs ih =>
      cases i with
      | zero =>
          refine ⟨fun hs => ?_, ?_⟩
          · rw [hinst.1] at hs
            cases hs
          · rw [hinst.2]
            exact h
      | succ i => exact ⟨h.1, ih h.2 i⟩

/-- A call between the start and the stop of the timer. -/
theorem timed {pre post : List Inst} {call : Inst} {counters : String} {slot : ℕ}
    (hpre : ∀ inst ∈ pre, inst.Timeless) (hcall : call.Calm)
    (h : Paced false (pre ++ call :: post)) :
    Paced false (pre ++ .timerStart :: call :: .timerStop counters slot :: post) := by
  rw [append_iff hpre] at h ⊢
  obtain ⟨-, hpost⟩ := h
  rw [hcall.2] at hpost
  refine ⟨Bool.noConfusion, fun hs => ?_, ?_⟩
  · rw [hcall.1] at hs
    cases hs
  · rw [hcall.2]
    exact ⟨fun _ => rfl, hpost⟩

end Paced

/-! ### Programs -/

/-- What is true of instructions that do not use the timer, and stays true when instructions are
added that keep the timer as it is, and when a call is measured before which nothing uses it. -/
structure KeptByTiming (kept : List Inst → Prop) : Prop where
  timeless : ∀ insts, (∀ inst ∈ insts, inst.Timeless) → kept insts
  insert : ∀ insts i inst, inst.Calm → kept insts → kept (insts.insertIdx i inst)
  timed : ∀ pre call post counters slot, (∀ inst ∈ pre, inst.Timeless) → call.Calm →
    kept (pre ++ call :: post) →
    kept (pre ++ .timerStart :: call :: .timerStop counters slot :: post)

theorem Paced.of_timeless {insts : List Inst} (h : ∀ inst ∈ insts, inst.Timeless) :
    Paced false insts := by
  have hpaced : Paced false (insts ++ []) := (append_iff h).mpr trivial
  rwa [List.append_nil] at hpaced

theorem Paced.kept : KeptByTiming (Paced false) where
  timeless _ := of_timeless
  insert _ i _ hinst h := h.insertIdx hinst i
  timed _ _ _ _ _ := timed

namespace Program

variable {splitting : Prop} {added : Inst → Prop} {kept : List Inst → Prop} {p q r : Program}

/-- All blocks have the property. -/
def AllInsts (kept : List Inst → Prop) (p : Program) : Prop :=
  ∀ function b block, p.block? function b = some block → kept block.insts

def Paced (p : Program) : Prop :=
  ∀ function b block, p.block? function b = some block → FlowProfile.Paced false block.insts

theorem Edited.allInsts (h : p.Edited splitting added q) (hk : KeptByTiming kept)
    (hadd : ∀ inst, added inst → inst.Calm) (hp : p.AllInsts kept) : q.AllInsts kept := by
  intro function b block hb
  obtain ⟨g, hg, hb⟩ := block?_eq_some_iff.mp hb
  obtain ⟨f, hf, hfg⟩ := h.exists_left hg
  refine hfg.forall_insts (fun _ => kept)
    (fun _ insts i inst ha hinsts => hk.insert insts i inst (hadd inst ha) hinsts)
    (fun _ _ => hk.timeless [] nofun) ?_ hb
  intro x block' hx
  exact hp function x block' (block?_eq_some_iff.mpr ⟨f, hf, hx⟩)

/-- No instruction uses the timer. -/
def Timeless (p : Program) : Prop := ∀ inst, p.HasInst inst → inst.Timeless

theorem Timeless.allInsts (h : p.Timeless) (hk : KeptByTiming kept) : p.AllInsts kept :=
  fun function b block hb =>
    hk.timeless block.insts fun inst hmem => h inst ⟨function, b, block, hb, hmem⟩

theorem IsPlain.timeless (hp : p.IsPlain) : p.Timeless :=
  fun _ hinst => (hp.hasInst hinst).timeless

theorem Edited.timeless (h : p.Edited splitting added q)
    (hadd : ∀ inst, added inst → inst.Timeless) (hp : p.Timeless) : q.Timeless := by
  intro inst hinst
  rcases h.hasInst hinst with ha | hinst
  · exact hadd inst ha
  · exact hp inst hinst

end Program

/-! ### The pass that measures -/

/-- Two sites in one block stand in the order of its instructions. -/
def CallSite.Before (c d : CallSite) : Prop :=
  c.function = d.function → c.block = d.block → c.inst < d.inst

theorem pairwise_zipIdx {α : Type} (xs : List α) (k : ℕ) :
    (xs.zipIdx k).Pairwise fun x y => x.2 < y.2 := by
  induction xs generalizing k with
  | nil => exact .nil
  | cons x xs ih =>
      rw [List.zipIdx_cons, List.pairwise_cons]
      refine ⟨?_, ih (k + 1)⟩
      rintro ⟨y, i⟩ hmem
      exact List.le_snd_of_mem_zipIdx hmem

theorem Block.callSites_place {b : Block} {function : ℕ} {block : BlockId} {c : CallSite}
    (h : c ∈ b.callSites function block) : c.function = function ∧ c.block = block := by
  obtain ⟨⟨inst, i⟩, -, hsite⟩ := List.mem_filterMap.mp h
  cases inst <;> cases hsite
  exact ⟨rfl, rfl⟩

theorem Block.callSites_before (b : Block) (function : ℕ) (block : BlockId) :
    (b.callSites function block).Pairwise CallSite.Before := by
  refine List.Pairwise.filterMap _ ?_ (pairwise_zipIdx b.insts 0)
  rintro ⟨inst, i⟩ ⟨inst', j⟩ hij c hc d hd - -
  cases inst <;> cases hc
  cases inst' <;> cases hd
  exact hij

theorem Function.callSites_before (f : Function) (function : ℕ) :
    (f.callSites function).Pairwise CallSite.Before := by
  refine List.pairwise_flatMap.mpr ⟨fun x _ => x.1.callSites_before function x.2, ?_⟩
  refine (pairwise_zipIdx f.blocks 0).imp ?_
  intro x y hxy c hc d hd _ hblock
  rw [(Block.callSites_place hc).2, (Block.callSites_place hd).2] at hblock
  exact absurd hblock hxy.ne

theorem Program.callSites_before (p : Program) : p.callSites.Pairwise CallSite.Before := by
  refine List.pairwise_flatMap.mpr ⟨fun x _ => x.1.callSites_before x.2, ?_⟩
  refine (pairwise_zipIdx p.functions 0).imp ?_
  intro x y hxy c hc d hd hfunction _
  obtain ⟨_, _, hc⟩ := List.mem_flatMap.mp hc
  obtain ⟨_, _, hd⟩ := List.mem_flatMap.mp hd
  rw [(Block.callSites_place hc).1, (Block.callSites_place hd).1] at hfunction
  exact absurd hfunction hxy.ne

/-- Two sites in one block stand in the order of its instructions. -/
theorem SiteKind.sites_before {α : Type} (k : SiteKind α) (p : Program) :
    (p.callSites.filterMap k.find).Pairwise fun s t => (k.site s).function = (k.site t).function →
      (k.site s).block = (k.site t).block → (k.site s).inst < (k.site t).inst := by
  refine List.Pairwise.filterMap _ ?_ p.callSites_before
  intro c d hcd s hs t ht
  obtain ⟨hsFunction, hsBlock, hsInst⟩ := k.place hs
  obtain ⟨htFunction, htBlock, htInst⟩ := k.place ht
  rw [hsFunction, hsBlock, hsInst, htFunction, htBlock, htInst]
  exact hcd

/-- The call of a site that is still to be measured, with nothing before it that uses the timer. -/
def Program.Awaits (p : Program) (s : Comm.Site) : Prop :=
  ∃ block pre call post, p.block? s.function s.block = some block ∧
    block.insts = pre ++ call :: post ∧ pre.length = s.inst ∧
    (∀ inst ∈ pre, inst.Timeless) ∧ call.Calm

theorem Program.Timeless.awaits {p : Program} (hp : p.Timeless) :
    ∀ s ∈ p.timedSites, p.Awaits s := by
  intro s hs
  obtain ⟨c, hc, hsite⟩ := List.mem_filterMap.mp hs
  obtain ⟨block, hb, hi⟩ := mem_callSites.mp hc
  obtain ⟨hlt, hget⟩ := List.getElem?_eq_some_iff.mp hi
  unfold Comm.Site.ofCall? at hsite
  split at hsite
  · rename_i name hname
    obtain ⟨op, hop, rfl⟩ := Option.map_eq_some_iff.mp hsite
    refine ⟨block, block.insts.take c.inst, block.insts[c.inst], block.insts.drop (c.inst + 1), hb,
      ?_, ?_, ?_, ?_⟩
    · rw [← List.drop_eq_getElem_cons hlt, List.take_append_drop]
    · exact List.length_take_of_le hlt.le
    · intro inst hmem
      exact hp inst ⟨c.function, c.block, block, hb, List.mem_of_mem_take hmem⟩
    · rw [hget, hname]
      exact Inst.calm_of_lookup? c.args hop
  · cases hsite

theorem insertIdx_around {α : Type} (xs ys : List α) (x start stop : α) :
    ((xs ++ x :: ys).insertIdx (xs.length + 1) stop).insertIdx xs.length start =
      xs ++ start :: x :: stop :: ys := by
  induction xs with
  | nil => rfl
  | cons y xs ih => exact congrArg (y :: ·) ih

namespace Program

variable {kept : List Inst → Prop} {p q : Program} {counters : String}

theorem trapTimed_eq_ok {s : Comm.Site} {index : ℕ} (h : trapTimed counters p (s, index) = .ok q) :
    q = (p.insert s.function s.block (s.inst + 1) (.timerStop counters index)).insert s.function
        s.block s.inst .timerStart ∧
      ∃ block, p.block? s.function s.block = some block ∧ s.inst + 1 ≤ block.insts.length := by
  simp only [trapTimed, Outcome.bind_eq_ok_iff, narrow_eq_ok_iff] at h
  obtain ⟨slot, ⟨-, rfl⟩, hupdate⟩ := h
  obtain ⟨f, g, hf, hfg, rfl⟩ := update_eq_ok_iff.mp hupdate
  obtain ⟨mid, hmid, hfg⟩ := Outcome.bind_eq_ok_iff.mp hfg
  obtain ⟨block, hb, hi, rfl⟩ := Function.insertAt_eq_ok_iff.mp hmid
  obtain ⟨_, _, _, rfl⟩ := Function.insertAt_eq_ok_iff.mp hfg
  refine ⟨?_, block, block?_eq_some_iff.mpr ⟨f, hf, hb⟩, hi⟩
  obtain ⟨hlt, rfl⟩ := List.getElem?_eq_some_iff.mp hf
  simp [insert, List.modify_eq_set_getElem?, hlt]

/-- What measuring a site makes of its block. -/
theorem trapTimed_block? {s : Comm.Site} {index : ℕ} {block : Block} {pre post : List Inst}
    {call : Inst} (hb : p.block? s.function s.block = some block)
    (hinsts : block.insts = pre ++ call :: post) (hlen : pre.length = s.inst)
    (h : trapTimed counters p (s, index) = .ok q) (function : ℕ) (b : BlockId) :
    q.block? function b =
      if s.function = function ∧ s.block = b then
        some { block with insts := pre ++ .timerStart :: call :: .timerStop counters index :: post }
      else p.block? function b := by
  obtain ⟨rfl, -⟩ := trapTimed_eq_ok h
  split
  · rename_i hplace
    obtain ⟨rfl, rfl⟩ := hplace
    rw [block?_insert_self (block?_insert_self hb ..), hinsts, ← hlen, insertIdx_around]
  · rename_i hplace
    rw [block?_insert_ne hplace, block?_insert_ne hplace]

theorem trapTimed_allInsts {s : Comm.Site} {index : ℕ} (hk : KeptByTiming kept)
    (hp : p.AllInsts kept) (hs : p.Awaits s) (h : trapTimed counters p (s, index) = .ok q) :
    q.AllInsts kept := by
  obtain ⟨block, pre, call, post, hb, hinsts, hlen, hpre, hcall⟩ := hs
  intro function b block' hb'
  rw [trapTimed_block? hb hinsts hlen h] at hb'
  split at hb'
  · obtain rfl := Option.some.inj hb'
    exact hk.timed pre call post counters index hpre hcall (hinsts ▸ hp _ _ block hb)
  · exact hp function b block' hb'

theorem Awaits.trapTimed {s t : Comm.Site} {index : ℕ} (hs : p.Awaits s)
    (h : trapTimed counters p (s, index) = .ok q)
    (hbefore : t.function = s.function → t.block = s.block → t.inst < s.inst) (ht : p.Awaits t) :
    q.Awaits t := by
  obtain ⟨block, pre, call, post, hb, hinsts, hlen, hpre, hcall⟩ := hs
  obtain ⟨block', pre', call', post', hb', hinsts', hlen', hpre', hcall'⟩ := ht
  have hblocks := trapTimed_block? hb hinsts hlen h
  by_cases hplace : s.function = t.function ∧ s.block = t.block
  · obtain ⟨hfunction, hblock⟩ := hplace
    rw [← hfunction, ← hblock] at hb'
    obtain rfl : block = block' := Option.some.inj (hb.symm.trans hb')
    -- the call of the other site stands before this one
    have hlt : pre'.length < pre.length := by
      rw [hlen, hlen']
      exact hbefore hfunction.symm hblock.symm
    have hother : pre' ++ [call'] <+: block.insts := ⟨post', by rw [hinsts']; simp⟩
    have hown : pre <+: block.insts := ⟨call :: post, hinsts.symm⟩
    obtain ⟨rest, hrest⟩ := List.prefix_of_prefix_length_le hother hown (by simpa using hlt)
    refine ⟨{ block with
        insts := pre ++ .timerStart :: call :: .timerStop counters index :: post },
      pre', call', rest ++ .timerStart :: call :: .timerStop counters index :: post,
      ?_, ?_, hlen', hpre', hcall'⟩
    · rw [hblocks, if_pos ⟨hfunction, hblock⟩]
    · rw [← hrest]
      simp
  · refine ⟨block', pre', call', post', ?_, hinsts', hlen', hpre', hcall'⟩
    rw [hblocks, if_neg hplace, hb']

/-- Sites are measured from the last to the first. -/
theorem trapTimed_fold_allInsts {sites : List Comm.Site} (hk : KeptByTiming kept)
    (hp : p.AllInsts kept) (hsites : ∀ s ∈ sites, p.Awaits s)
    (hbefore : sites.Pairwise fun s t => s.function = t.function → s.block = t.block →
      s.inst < t.inst)
    (h : sites.zipIdx.reverse.foldlM (Program.trapTimed counters) p = .ok q) :
    q.AllInsts kept := by
  induction sites using List.reverseRecOn generalizing p with
  | nil =>
      obtain rfl : p = q := by simpa using h
      exact hp
  | append_singleton sites s ih =>
      rw [List.zipIdx_append, List.reverse_append, List.zipIdx_singleton, List.reverse_singleton,
        List.singleton_append, List.foldlM_cons, Outcome.bind_eq_ok_iff] at h
      obtain ⟨mid, hmid, h⟩ := h
      obtain ⟨hinit, -, hlast⟩ := List.pairwise_append.mp hbefore
      have hs := hsites s (List.mem_append_right sites (List.mem_singleton_self s))
      refine ih (trapTimed_allInsts hk hp hs hmid) (fun t ht => ?_) hinit h
      exact hs.trapTimed hmid (hlast t ht s (List.mem_singleton_self s))
        (hsites t (List.mem_append_left [s] ht))

theorem timedSites_before (p : Program) : p.timedSites.Pairwise fun s t =>
    s.function = t.function → s.block = t.block → s.inst < t.inst :=
  Comm.Site.kind.sites_before p

theorem trapTime_allInsts (hk : KeptByTiming kept) (hp : p.Timeless)
    (h : p.trapTime counters = .ok q) : q.AllInsts kept := by
  simp only [trapTime, Outcome.bind_eq_ok_iff, declare_eq_ok_iff] at h
  obtain ⟨len, -, mid, ⟨-, hmid⟩, h⟩ := h
  have hfunctions : mid.functions = p.functions := by rw [hmid]
  have hmidTimeless : mid.Timeless := by
    rintro inst ⟨function, b, block, hb, hi⟩
    rw [block?, hfunctions] at hb
    exact hp inst ⟨function, b, block, hb, hi⟩
  have hsites : p.timedSites = mid.timedSites := by
    rw [timedSites, timedSites, callSites, callSites, hfunctions]
  rw [hsites] at h
  exact trapTimed_fold_allInsts hk (hmidTimeless.allInsts hk) hmidTimeless.awaits
    mid.timedSites_before h

end Program

/-! ### All strategies -/

/-- Only the pass that measures uses the timer. -/
theorem Pass.Adds.calm {values : Operand → Prop} {len : ℕ} {pass : Pass} {inst : Inst}
    (h : pass.Adds values len inst) (hpass : ∀ counters, pass ≠ .time counters) : inst.Calm := by
  cases h with
  | timerStart => exact absurd rfl (hpass _)
  | timerStop => exact absurd rfl (hpass _)
  | _ => exact ⟨rfl, fun _ => rfl⟩

theorem Strategy.eq_time {s : Strategy} {counters : String} (h : Pass.time counters ∈ s.passes) :
    s = .time := by
  cases s <;> simp [passes] at h ⊢

theorem Inst.Added.calm {values : Operand → Prop} {used : Strategy → Prop} {p : Program}
    {inst : Inst} (h : Inst.Added values used p inst) (hused : ¬used .time) : inst.Calm := by
  cases h with
  | @pass s pass len inst hs hp hg ha =>
      refine ha.calm ?_
      rintro counters rfl
      exact hused (Strategy.eq_time hp ▸ hs)
  | @registration s hs hg => exact s.calm_registration

namespace Instrumenter

variable {ins : Instrumenter} {blocks : List ℕ} {values : Operand → Prop} {p q : Program}
  {kept : List Inst → Prop}

/-- The strategy that measures, for a program that does not use the timer. -/
theorem apply_time_allInsts {main : ℕ} (hk : KeptByTiming kept) (hp : p.Timeless)
    (hcopies : p.Copies values) (h : ins.apply blocks main p .time = .ok q) : q.AllInsts kept := by
  simp only [apply, Strategy.passes, List.foldlM_cons, List.foldlM_nil, Outcome.bind_eq_ok_iff,
    Outcome.pure_eq_ok_iff] at h
  obtain ⟨_, ⟨timed, htimed, ranked, hranked, rfl⟩, hregister⟩ := h
  have htimedKept := Program.trapTime_allInsts hk hp htimed
  have htimedCopies : timed.Copies values := by
    intro name args hinst
    rcases (Program.trapTime_spec values htimed).2.2.hasInst hinst with ha | hinst
    · cases ha
    · exact hcopies name args hinst
  have hrankedKept := (Program.trapRank_spec htimedCopies hranked).2.2.allInsts hk
    (fun inst ha => ha.calm fun _ => Pass.noConfusion) htimedKept
  obtain ⟨-, hregisterEdit⟩ := Program.update_insertAtStart_edited hregister
  exact hregisterEdit.allInsts hk (fun inst ha => ha ▸ Strategy.calm_registration .time)
    hrankedKept

/-- The blocks have the property, and use no timer until the strategy that measures. -/
theorem strategies_allInsts {main : ℕ} {strategies : List Strategy} (hk : KeptByTiming kept)
    (hblocks : blocks.length = p.functions.length) (hcopies : p.Copies values)
    (hw : ∀ w ∈ ins.weights, values w.value) (hnodup : strategies.Nodup) (hp : p.AllInsts kept)
    (htimeless : .time ∈ strategies → p.Timeless)
    (h : strategies.foldlM (ins.apply blocks main) p = .ok q) : q.AllInsts kept := by
  induction strategies generalizing p with
  | nil =>
      obtain rfl : p = q := by simpa using h
      exact hp
  | cons s strategies ih =>
      rw [List.foldlM_cons, Outcome.bind_eq_ok_iff] at h
      obtain ⟨mid, hmid, h⟩ := h
      obtain ⟨hnew, hrestNodup⟩ := List.nodup_cons.mp hnodup
      obtain ⟨hgrows, -⟩ := apply_grows hblocks hcopies hw hmid
      have hlen := hblocks.trans hgrows.edited.length_eq.symm
      by_cases hs : s = .time
      · subst hs
        have hmidKept := apply_time_allInsts hk (htimeless List.mem_cons_self) hcopies hmid
        exact ih hlen (hgrows.copies hcopies) hrestNodup hmidKept (fun hmem => absurd hmem hnew) h
      · have hcalm : ∀ inst, Inst.Added values (· = s) mid inst → inst.Calm :=
          fun inst ha => ha.calm fun heq => hs heq.symm
        refine ih hlen (hgrows.copies hcopies) hrestNodup (hgrows.edited.allInsts hk hcalm hp) ?_ h
        intro hmem
        exact hgrows.edited.timeless (fun inst ha => (hcalm inst ha).timeless)
          (htimeless (List.mem_cons_of_mem s hmem))

end Instrumenter

end FlowProfile
