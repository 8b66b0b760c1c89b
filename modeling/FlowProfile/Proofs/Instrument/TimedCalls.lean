import FlowProfile.Proofs.Instrument.Calls
import FlowProfile.Proofs.Instrument.Timing

/-!
# Measured calls

In an instrumented program starts and stops of the timer alternate, block by block. Each call of
the plain program that is measured stands between a start and a stop of its own, and nothing else
of the program does.
-/

namespace FlowProfile

/-! ### Starts and stops -/

/-- Is the timer to be stopped before it is started? -/
def timing : List Inst → Bool
  | [] => false
  | .timerStart :: _ => false
  | .timerStop _ _ :: _ => true
  | _ :: rest => timing rest

/-- Behind a start comes a stop, and behind a stop none before the next start. -/
def Alternates : List Inst → Prop
  | [] => True
  | inst :: rest => (inst = .timerStart → timing rest = true) ∧
    (inst.stopsTimer = true → timing rest = false) ∧ Alternates rest

/-- A block at whose start nothing is measured. -/
structure Alternating (insts : List Inst) : Prop where
  idle : timing insts = false
  alternates : Alternates insts

theorem Inst.Timeless.ne_timerStart {inst : Inst} (h : inst.Timeless) : inst ≠ .timerStart := by
  rintro rfl
  cases h.2

theorem Inst.timer_cases (inst : Inst) :
    inst = .timerStart ∨ inst.stopsTimer = true ∨ inst.Timeless := by
  cases inst with
  | timerStart => exact .inl rfl
  | timerStop counters slot => exact .inr (.inl rfl)
  | call callee args => exact .inr (.inr (.call callee args))
  | _ => exact .inr (.inr ⟨rfl, rfl⟩)

theorem timing_of_stops {inst : Inst} (h : inst.stopsTimer = true) (rest : List Inst) :
    timing (inst :: rest) = true := by
  cases inst with
  | timerStop counters slot => rfl
  | _ => cases h

theorem timing_cons {inst : Inst} (h : inst.Timeless) (rest : List Inst) :
    timing (inst :: rest) = timing rest := by
  cases inst with
  | timerStart => exact absurd rfl h.ne_timerStart
  | timerStop counters slot => cases h.1
  | _ => rfl

theorem timing_append {xs : List Inst} (h : ∀ inst ∈ xs, inst.Timeless) (rest : List Inst) :
    timing (xs ++ rest) = timing rest := by
  induction xs with
  | nil => rfl
  | cons inst xs ih =>
      rw [List.forall_mem_cons] at h
      rw [List.cons_append, timing_cons h.1, ih h.2]

theorem timing_insertIdx {inst : Inst} (h : inst.Timeless) (xs : List Inst) (i : ℕ) :
    timing (xs.insertIdx i inst) = timing xs := by
  induction xs generalizing i with
  | nil =>
      cases i with
      | zero => exact timing_cons h []
      | succ i => rfl
  | cons x xs ih =>
      cases i with
      | zero => exact timing_cons h (x :: xs)
      | succ i =>
          rw [List.insertIdx_succ_cons]
          cases x with
          | timerStart => rfl
          | timerStop counters slot => rfl
          | _ => exact ih i

namespace Alternates

variable {xs ys : List Inst} {inst : Inst}

theorem cons (hinst : inst.Timeless) (h : Alternates xs) : Alternates (inst :: xs) := by
  refine ⟨fun heq => absurd heq hinst.ne_timerStart, fun hstops => ?_, h⟩
  rw [hinst.1] at hstops
  cases hstops

theorem append (hxs : ∀ inst ∈ xs, inst.Timeless) (h : Alternates ys) : Alternates (xs ++ ys) := by
  induction xs with
  | nil => exact h
  | cons inst xs ih =>
      rw [List.forall_mem_cons] at hxs
      exact (ih hxs.2).cons hxs.1

theorem suffix (h : Alternates ys) (hxs : xs <:+ ys) : Alternates xs := by
  induction ys with
  | nil => exact List.suffix_nil.mp hxs ▸ h
  | cons y ys ih =>
      rcases List.suffix_cons_iff.mp hxs with rfl | hxs
      · exact h
      · exact ih h.2.2 hxs

theorem insertIdx (hinst : inst.Timeless) (h : Alternates xs) (i : ℕ) :
    Alternates (xs.insertIdx i inst) := by
  induction xs generalizing i with
  | nil =>
      cases i with
      | zero => exact cons hinst trivial
      | succ i => trivial
  | cons x xs ih =>
      cases i with
      | zero => exact h.cons hinst
      | succ i =>
          obtain ⟨hstart, hstop, hrest⟩ := h
          rw [List.insertIdx_succ_cons]
          refine ⟨fun heq => ?_, fun hs => ?_, ih hrest i⟩
          · rw [timing_insertIdx hinst, hstart heq]
          · rw [timing_insertIdx hinst, hstop hs]

end Alternates

theorem Alternating.kept : KeptByTiming Alternating where
  timeless insts h := by
    rw [← List.append_nil insts]
    exact ⟨timing_append h [], .append h trivial⟩
  insert insts i inst hinst h :=
    ⟨(timing_insertIdx hinst.timeless insts i).trans h.idle,
      h.alternates.insertIdx hinst.timeless i⟩
  timed pre call post counters slot hpre hcall h := by
    have hidle := h.idle
    rw [timing_append hpre, timing_cons hcall.timeless] at hidle
    have hpost : Alternates post := h.alternates.suffix
      ((List.suffix_cons call post).trans (List.suffix_append pre _))
    refine ⟨timing_append hpre _, .append hpre ⟨fun _ => ?_, Bool.noConfusion, ?_⟩⟩
    · exact timing_cons hcall.timeless _
    · exact .cons hcall.timeless ⟨Inst.noConfusion, fun _ => hidle, hpost⟩

/-! ### The pass that measures -/

/-- Does the instruction add to a slot of times or weights? -/
def Inst.addsTo (counters : String) (slot : ℕ) : Inst → Bool
  | .addWeight name k _ | .timerStop name k => name = counters ∧ k = slot
  | _ => false

theorem Inst.timeless_of_isOriginal {inst : Inst} (h : inst.isOriginal = true) :
    inst.Timeless := by
  cases inst with
  | op opcode dest operands => exact ⟨rfl, rfl⟩
  | call callee args => exact .call callee args
  | _ => cases h

theorem Inst.addsTo_of_isOriginal {inst : Inst} (h : inst.isOriginal = true) (counters : String)
    (slot : ℕ) : inst.addsTo counters slot = false := by
  cases inst with
  | op opcode dest operands => rfl
  | call callee args => rfl
  | _ => cases h

namespace Program

variable {splitting : Prop} {added : Inst → Prop} {p q r : Program} {counters : String}
  {s t : Comm.Site} {i j : ℕ} {own : List Inst}

/-- The call that was at a place is measured. It has not come before that place. -/
def MeasuredAt (q : Program) (counters : String) (slot : ℕ) (s : Comm.Site) (own : List Inst) :
    Prop :=
  ∃ block before call after, q.block? s.function s.block = some block ∧
    block.insts = before ++ .timerStart :: call :: .timerStop counters slot :: after ∧
    s.inst ≤ before.length ∧ call.isOriginal = true ∧ (call :: after).filter Inst.isOriginal = own

/-- What is inserted before a measured call leaves it measured. -/
theorem MeasuredAt.insert {function index : ℕ} {b : BlockId} {inst : Inst}
    (h : q.MeasuredAt counters i s own)
    (hbefore : function = s.function → b = s.block → index ≤ s.inst) :
    (q.insert function b index inst).MeasuredAt counters i s own := by
  obtain ⟨block, before, call, after, hb, hinsts, hle, hcall, hown⟩ := h
  by_cases hplace : function = s.function ∧ b = s.block
  · obtain ⟨rfl, rfl⟩ := hplace
    have hindex := (hbefore rfl rfl).trans hle
    refine ⟨_, before.insertIdx index inst, call, after, block?_insert_self hb .., ?_, ?_, hcall,
      hown⟩
    · rw [hinsts, insertIdx_append_left before _ inst hindex]
    · rw [List.length_insertIdx_of_le_length hindex]
      exact Nat.le_succ_of_le hle
  · exact ⟨block, before, call, after, (block?_insert_ne hplace ..).trans hb, hinsts, hle, hcall,
      hown⟩

theorem trapTimed_edit (h : trapTimed counters p (s, i) = .ok q) :
    p.Edited False (fun inst => inst = .timerStart ∨ inst = .timerStop counters i) q := by
  obtain ⟨rfl, block, hb, hi⟩ := trapTimed_eq_ok h
  refine (insert_edited hb hi (.inr rfl)).trans
    (insert_edited (block?_insert_self hb ..) ?_ (.inl rfl))
  rw [List.length_insertIdx_of_le_length hi]
  omega

/-- The slots of two sites are apart. -/
theorem addsTo_eq_false (hij : j ≠ i) {inst : Inst}
    (h : inst = .timerStart ∨ inst = .timerStop counters j) : inst.addsTo counters i = false := by
  rcases h with rfl | rfl
  · rfl
  · simp [Inst.addsTo, hij]

/-- A site whose turn has not come, and a slot that nothing adds to yet. -/
structure Unmeasured (p : Program) (counters : String) (slot : ℕ) (s : Comm.Site)
    (own : List Inst) : Prop where
  place : p.CallAt s.function s.block s.inst own
  unused : p.Never (Inst.addsTo counters slot)

/-- A site that is measured, and a slot that only its stop adds to. -/
structure Measured (p : Program) (counters : String) (slot : ℕ) (s : Comm.Site)
    (own : List Inst) : Prop where
  place : p.MeasuredAt counters slot s own
  once : p.Once (Inst.addsTo counters slot) s.function s.block

/-- The site's own turn. -/
theorem Unmeasured.measure (h : p.Unmeasured counters i s own)
    (hq : trapTimed counters p (s, i) = .ok q) : q.Measured counters i s own := by
  obtain ⟨rfl, block, hb, hi⟩ := trapTimed_eq_ok hq
  obtain ⟨block', before, call, after, hb', hinsts, hlen, hcall, hown⟩ := h.place
  obtain rfl := Option.some.inj (hb.symm.trans hb')
  have hstop : (p.insert s.function s.block (s.inst + 1) (.timerStop counters i)).Once
      (Inst.addsTo counters i) s.function s.block :=
    h.unused.insert hb hi (by simp [Inst.addsTo])
  have hlt : s.inst ≤ (block.insts.insertIdx (s.inst + 1) (.timerStop counters i)).length := by
    rw [List.length_insertIdx_of_le_length hi]
    omega
  have hstart : (p.insert s.function s.block (s.inst + 1) (.timerStop counters i)).Edited False
      (· = .timerStart) _ := insert_edited (block?_insert_self hb ..) hlt rfl
  refine ⟨⟨_, before, call, after, block?_insert_self (block?_insert_self hb ..) .., ?_, hlen.ge,
    hcall, hown⟩, hstop.edited hstart ?_⟩
  · rw [hinsts, ← hlen, insertIdx_around]
  · rintro inst rfl
    rfl

/-- The turn of a later site in its block leaves the call where it is. -/
theorem Unmeasured.measure_later (h : p.Unmeasured counters i s own) (hij : j ≠ i)
    (hlater : s.function = t.function → s.block = t.block → s.inst < t.inst)
    (hq : trapTimed counters p (t, j) = .ok q) : q.Unmeasured counters i s own := by
  refine ⟨?_, h.unused.edited (trapTimed_edit hq) fun inst => addsTo_eq_false hij⟩
  obtain ⟨rfl, -⟩ := trapTimed_eq_ok hq
  have hbehind : t.function = s.function → t.block = s.block → s.inst < t.inst :=
    fun hfunction hblock => hlater hfunction.symm hblock.symm
  exact (h.place.insert (fun hfunction hblock => Nat.lt_succ_of_lt (hbehind hfunction hblock))
    rfl).insert hbehind rfl

theorem Measured.measure_earlier (h : p.Measured counters i s own) (hij : j ≠ i)
    (hearlier : t.function = s.function → t.block = s.block → t.inst < s.inst)
    (hq : trapTimed counters p (t, j) = .ok q) : q.Measured counters i s own := by
  refine ⟨?_, h.once.edited (trapTimed_edit hq) fun inst => addsTo_eq_false hij⟩
  obtain ⟨rfl, -⟩ := trapTimed_eq_ok hq
  exact (h.place.insert hearlier).insert
    fun hfunction hblock => (hearlier hfunction hblock).le

/-- Sites are measured from the last to the first. -/
theorem Unmeasured.measure_fold {sites : List Comm.Site} (hs : sites[i]? = some s)
    (h : p.Unmeasured counters i s own)
    (hbefore : sites.Pairwise fun s t =>
      s.function = t.function → s.block = t.block → s.inst < t.inst)
    (hq : sites.zipIdx.reverse.foldlM (trapTimed counters) p = .ok q) :
    q.Measured counters i s own := by
  obtain ⟨hi, rfl⟩ := List.getElem?_eq_some_iff.mp hs
  refine foldlM_zipIdx_reverse (·.Unmeasured counters i sites[i] own)
    (·.Measured counters i sites[i] own) hs ?_ (fun _ _ => Unmeasured.measure) ?_ h hq
  · intro t j ht hij p q hp hstep
    obtain ⟨hj, rfl⟩ := List.getElem?_eq_some_iff.mp ht
    exact hp.measure_later hij.ne' (List.pairwise_iff_getElem.mp hbefore i j hi hj hij) hstep
  · intro t j ht hij p q hp hstep
    obtain ⟨hj, rfl⟩ := List.getElem?_eq_some_iff.mp ht
    exact hp.measure_earlier hij.ne (List.pairwise_iff_getElem.mp hbefore j i hj hi hij) hstep

/-- The pass measures every site of the plain program, in the slot of its number there. -/
theorem trapTime_measured (hvalid : p.IsValid) (hp : p.IsOriginal)
    (hedit : p.Edited splitting added q) (honly : OnlyRegisters added)
    (hadd : ∀ inst, added inst → inst.isOriginal = false ∧
      ∀ slot, inst.addsTo counters slot = false) (hs : p.timedSites[i]? = some s)
    {block : Block} (hb : p.block? s.function s.block = some block)
    (h : q.trapTime counters = .ok r) :
    ∃ t, t.function = s.function ∧ t.block = s.block ∧
      r.Measured counters i t (block.insts.drop s.inst) := by
  simp only [trapTime, Outcome.bind_eq_ok_iff, declare_eq_ok_iff] at h
  obtain ⟨len, -, mid, ⟨-, rfl⟩, h⟩ := h
  obtain ⟨t, c, d, ht, hcall, hc, hd⟩ := hedit.exists_site Comm.Site.placeless
    (fun _ _ hc => Comm.Site.ofCall?_registration hc) hvalid honly hs
  obtain ⟨hfunction, hblock, hinst⟩ := Comm.Site.place_of_ofCall? hc
  obtain ⟨hfunction', hblock', hinst'⟩ := Comm.Site.place_of_ofCall? hd
  have hmoved : d = { c with inst := d.inst } := by
    obtain ⟨_, _, _, _, heq, -⟩ := hcall
    exact heq
  refine ⟨t, ?_, ?_, ?_⟩
  · rw [hfunction', hfunction, hmoved]
  · rw [hblock', hblock, hmoved]
  · have hunused : q.Never (Inst.addsTo counters i) := by
      refine Never.edited (fun j f hf x => ?_) hedit fun inst ha => (hadd inst ha).2 i
      exact tally_eq_zero hf (fun inst hinst => Inst.addsTo_of_isOriginal (hp.hasInst hinst) ..) x
    have hunmeasured : Unmeasured { q with globals := q.globals ++ [⟨counters, .f64, len, 0⟩] }
        counters i t (block.insts.drop s.inst) := by
      refine ⟨?_, hunused⟩
      rw [hfunction', hblock', hinst', hinst]
      rw [hfunction, hblock] at hb
      exact hcall.callAt hp (fun inst ha => (hadd inst ha).1) hb
    exact hunmeasured.measure_fold ht q.timedSites_before h

end Program

/-! ### Intervals -/

/-- The array of the times. -/
def timeCounters : String := "__commprof_time_counters"

/-- What stands in a block from a start of the timer on: what comes before the call, the call, what
comes between it and the stop, and what is left behind the stop. -/
structure Interval where
  function : ℕ
  block : BlockId
  lead : List Inst
  call : Inst
  between : List Inst
  slot : ℕ
  after : List Inst
deriving DecidableEq, Repr

namespace Interval

/-- Where the timer is stopped. -/
def stop (v : Interval) : Frame :=
  ⟨v.function, v.block, .timerStop timeCounters v.slot :: v.after⟩

/-- Where the call is made. -/
def calling (v : Interval) : Frame :=
  ⟨v.function, v.block, v.call :: (v.between ++ v.stop.rest)⟩

/-- Where the timer is started. -/
def start (v : Interval) : Frame :=
  ⟨v.function, v.block, .timerStart :: (v.lead ++ v.calling.rest)⟩

end Interval

namespace Program

/-- In `q` the interval is that of a site of `p`: its slot is the number of the site, its call is
that of the site, and nothing else of `p` stands between the start and the stop. -/
structure Times (p q : Program) (v : Interval) : Prop where
  stands : v.start.IsIn q
  original : v.call.isOriginal = true
  added : ∀ inst, inst ∈ v.lead ∨ inst ∈ v.between → inst.isOriginal = false ∧ inst.Timeless
  site : ∃ s block, p.timedSites[v.slot]? = some s ∧ p.block? s.function s.block = some block ∧
    v.function = s.function ∧ v.block = s.block ∧
    v.calling.rest.filter Inst.isOriginal = block.insts.drop s.inst

section

variable {p q : Program} {v : Interval}

theorem Times.calling_isIn (h : p.Times q v) : v.calling.IsIn q :=
  Frame.IsIn.suffix h.stands (List.suffix_append (.timerStart :: v.lead) _)

theorem Times.stop_isIn (h : p.Times q v) : v.stop.IsIn q :=
  Frame.IsIn.suffix h.calling_isIn (List.suffix_append (v.call :: v.between) _)

/-- What is measured is a direct call of a recognised operation. -/
theorem Times.exists_call (h : p.Times q v) : ∃ name args op,
    v.call = .call (.direct name) args ∧ Comm.Operation.lookup? name = some op := by
  obtain ⟨s, block, hsite, hb, -, -, hown⟩ := h.site
  obtain ⟨c, hc, hs⟩ := List.mem_filterMap.mp (List.mem_of_getElem? hsite)
  obtain ⟨hfunction, hblock, hinst⟩ := Comm.Site.place_of_ofCall? hs
  obtain ⟨name, op, hname, hop⟩ := Comm.Site.kind.operation hs
  obtain ⟨block', hb', hcall⟩ := mem_callSites.mp hc
  rw [hfunction, hblock, hb'] at hb
  obtain rfl := Option.some.inj hb
  rw [Interval.calling, List.filter_cons_of_pos h.original, hinst, drop_of_getElem? hcall] at hown
  exact ⟨name, c.args, op, hname ▸ (List.cons.inj hown).1, hop⟩

end

variable {splitting : Prop} {added : Inst → Prop} {p q r : Program} {s : Comm.Site} {i : ℕ}
  {own : List Inst}

/-- What is added later may come between the call and the timer, but takes neither away. -/
theorem MeasuredAt.exists_interval (h : r.MeasuredAt timeCounters i s own)
    (hedit : r.Edited splitting added q)
    (hadd : ∀ inst, added inst → inst.isOriginal = false ∧ inst.Timeless) :
    ∃ v : Interval, v.slot = i ∧ v.function = s.function ∧ v.block = s.block ∧ v.start.IsIn q ∧
      v.call.isOriginal = true ∧
      (∀ inst, inst ∈ v.lead ∨ inst ∈ v.between → inst.isOriginal = false ∧ inst.Timeless) ∧
      v.calling.rest.filter Inst.isOriginal = own := by
  obtain ⟨block, before, call, after, hb, hinsts, -, hcall, hown⟩ := h
  obtain ⟨f, hf, hb⟩ := block?_eq_some_iff.mp hb
  obtain ⟨g, hg, hfg⟩ := hedit.exists_right hf
  obtain ⟨block', hb', hwoven⟩ := hfg.block_insts (Woven added block.insts)
    (fun _ i _ ha hinsts => hinsts.insertIdx ha i) hb (.refl block.insts)
  rw [hinsts] at hwoven
  obtain ⟨found, hfound, hwoven⟩ := hwoven.exists_of_append
  obtain ⟨other, rest, rfl, -, hwoven⟩ := hwoven.exists_of_cons
  obtain ⟨lead, rest, rfl, hlead, hwoven⟩ := hwoven.exists_of_cons
  have hfilter := hwoven.filter_eq fun inst ha => (hadd inst ha).1
  obtain ⟨between, rest, rfl, hbetween, -⟩ := hwoven.exists_of_cons
  refine ⟨⟨s.function, s.block, lead, call, between, i, rest⟩, rfl, rfl, rfl,
    ⟨block', block?_eq_some_iff.mpr ⟨g, hg, hb'⟩, (List.suffix_append other _).trans hfound⟩,
    hcall, ?_, ?_⟩
  · rintro inst (hmem | hmem)
    · exact hadd inst (hlead inst hmem)
    · exact hadd inst (hbetween inst hmem)
  · rw [← hown, List.filter_cons_of_pos hcall]
    exact (List.filter_cons_of_pos hcall).trans (congrArg (call :: ·) hfilter)

end Program

/-! ### All strategies -/

theorem Strategy.passes_time :
    Strategy.time.passes = [.time timeCounters, .rank "__commprof_time_ranks"] := rfl

/-- A pass adds to its own array alone. -/
theorem Pass.Adds.addsTo_eq_false {values : Operand → Prop} {len : ℕ} {pass : Pass} {inst : Inst}
    {counters : String} (h : pass.Adds values len inst) (hpass : pass.counters ≠ counters)
    (slot : ℕ) : inst.addsTo counters slot = false := by
  cases h with
  | @timerStop name | @addWeight name =>
      have hname : name ≠ counters := hpass
      simp [Inst.addsTo, hname]
  | _ => rfl

/-- An instruction that is neither of the program itself nor one of those that measure. -/
def Inst.IsAside (inst : Inst) : Prop :=
  inst.isOriginal = false ∧ inst.Timeless ∧ ∀ slot, inst.addsTo timeCounters slot = false

theorem Strategy.registration_isAside (s : Strategy) : s.registration.IsAside :=
  ⟨s.isOriginal_registration, s.calm_registration.timeless, fun _ => rfl⟩

theorem Pass.Adds.isAside {values : Operand → Prop} {len : ℕ} {s : Strategy} {pass : Pass}
    {inst : Inst} (h : pass.Adds values len inst) (hs : pass ∈ s.passes)
    (hpass : ∀ counters, pass ≠ .time counters) : inst.IsAside := by
  refine ⟨h.isOriginal_eq_false, (h.calm hpass).timeless, h.addsTo_eq_false fun hname => ?_⟩
  exact hpass _ (Strategy.pass_unique hs (t := .time) List.mem_cons_self hname).2

theorem Inst.Added.isAside {values : Operand → Prop} {used : Strategy → Prop} {p : Program}
    {inst : Inst} (h : Inst.Added values used p inst) (hused : ¬used .time) : inst.IsAside := by
  cases h with
  | @pass s pass len inst hs hp hg ha =>
      refine ha.isAside hp ?_
      rintro counters rfl
      exact hused (Strategy.eq_time hp ▸ hs)
  | @registration s hs hg => exact s.registration_isAside

namespace Instrumenter

variable {ins : Instrumenter} {p q : Program} {main i : ℕ} {s : Comm.Site}

/-- Whatever other strategies are used before and after it, every site of the plain program has an
interval of its own. -/
theorem applyAll_times (hvalid : p.IsValid) (hp : p.IsOriginal) (hs : .time ∈ ins.strategies)
    (hsite : p.timedSites[i]? = some s) (h : ins.applyAll p.blockCounts main p = .ok q) :
    (∃ v, v.slot = i ∧ p.Times q v) ∧
      q.Once (Inst.addsTo timeCounters i) s.function s.block := by
  obtain ⟨first, second, hfirst, hsecond, hrest⟩ :=
    applyAll_split (List.length_map ..) p.copies_true (fun _ _ => trivial) hs h
  have haside : ∀ {r inst}, Inst.Added (fun _ => True)
      (fun t => t ∈ ins.strategies ∧ t ≠ .time) r inst → inst.IsAside :=
    fun ha => ha.isAside fun hused => hused.2 rfl
  obtain ⟨block, hb⟩ : ∃ block, p.block? s.function s.block = some block := by
    obtain ⟨c, hc, hsite⟩ := List.mem_filterMap.mp (List.mem_of_getElem? hsite)
    obtain ⟨hfunction, hblock, -⟩ := Comm.Site.place_of_ofCall? hsite
    obtain ⟨block, hb, -⟩ := Program.mem_callSites.mp hc
    exact ⟨block, hfunction ▸ hblock ▸ hb⟩
  simp only [apply, Strategy.passes_time, List.foldlM_cons, List.foldlM_nil, Outcome.bind_eq_ok_iff,
    Outcome.pure_eq_ok_iff] at hsecond
  obtain ⟨_, ⟨timed, htimed, ranked, hranked, rfl⟩, hregister⟩ := hsecond
  obtain ⟨t, hfunction, hblock, hmeasured⟩ := Program.trapTime_measured hvalid hp hfirst.edited
    Inst.Added.onlyRegisters (fun _ ha => ⟨(haside ha).1, (haside ha).2.2⟩) hsite hb htimed
  have hedit : timed.Edited True Inst.IsAside q := by
    obtain ⟨-, -, hrankedEdit⟩ := Program.trapRank_spec timed.copies_true hranked
    obtain ⟨-, hregisterEdit⟩ := Program.update_insertAtStart_edited hregister
    have hranked : timed.Edited True Inst.IsAside ranked := by
      refine hrankedEdit.mono False.elim fun inst ha => ?_
      exact ha.isAside (s := .time) (by simp [Strategy.passes]) fun _ => Pass.noConfusion
    have hregister : ranked.Edited True Inst.IsAside second := by
      refine hregisterEdit.mono False.elim ?_
      rintro inst rfl
      exact Strategy.registration_isAside .time
    exact (hranked.trans hregister).trans (hrest.edited.mono (fun _ => trivial) fun _ => haside)
  constructor
  · obtain ⟨v, hslot, hvFunction, hvBlock, hstands, hcall, hadded, hown⟩ :=
      hmeasured.place.exists_interval hedit fun inst ha => ⟨ha.1, ha.2.1⟩
    exact ⟨v, hslot, hstands, hcall, hadded, s, block, hslot ▸ hsite, hb,
      hvFunction.trans hfunction, hvBlock.trans hblock, hown⟩
  · rw [← hfunction, ← hblock]
    exact hmeasured.once.edited hedit fun inst ha => ha.2.2 i

/-- Where the timer is stopped, there is the stop of a site. -/
theorem applyAll_stops (hvalid : p.IsValid) (hp : p.IsOriginal)
    (h : ins.applyAll p.blockCounts main p = .ok q) {f : Frame} (hf : f.IsIn q) {counters : String}
    {slot : ℕ} {rest : List Inst} (hrest : f.rest = .timerStop counters slot :: rest) :
    ∃ v, p.Times q v ∧ f = v.stop := by
  obtain ⟨hgrows, -, hall⟩ :=
    strategies_grow (List.length_map ..) p.copies_true (fun _ _ => trivial) h
  have hinst : q.HasInst (.timerStop counters slot) := by
    obtain ⟨block, hb, hsuffix⟩ := hf
    exact ⟨_, _, block, hb, hsuffix.subset (hrest ▸ List.mem_cons_self)⟩
  have hadded := (hgrows.edited.hasInst hinst).resolve_right fun hown => by
    cases hp.hasInst hown
  generalize hstop : Inst.timerStop counters slot = inst at hadded
  cases hadded with
  | registration => cases hstop
  | @pass s pass len inst hs hpass hdecl ha =>
      cases ha <;> cases hstop
      rename_i hslot
      obtain rfl := Strategy.eq_time hpass
      obtain rfl : counters = timeCounters := by simpa [Strategy.passes_time] using hpass
      -- the array has a slot for each site
      obtain ⟨-, len', hdecl', hlen⟩ := hall .time hs _ hpass
      have hsame : len = len' := congrArg Global.len (hdecl.unique hdecl' rfl)
      have hlt : slot < p.timedSites.length :=
        Nat.lt_of_lt_of_eq hslot (hsame.trans (hlen.resolve_left id))
      obtain ⟨⟨v, rfl, htimes⟩, honce⟩ :=
        applyAll_times hvalid hp hs (List.getElem?_eq_getElem hlt) h
      exact ⟨v, htimes, honce.frame_eq hf htimes.stop_isIn hrest rfl (by simp [Inst.addsTo])
        (by simp [Inst.addsTo])⟩

theorem applyAll_alternating (hp : p.IsOriginal) (h : ins.applyAll p.blockCounts main p = .ok q) :
    q.AllInsts Alternating := by
  have hlen : p.blockCounts.length = p.functions.length := List.length_map ..
  obtain ⟨-, hnodup, -⟩ := strategies_grow hlen p.copies_true (fun _ _ => trivial) h
  have htimeless : p.Timeless := fun inst hinst => Inst.timeless_of_isOriginal (hp.hasInst hinst)
  exact strategies_allInsts Alternating.kept hlen p.copies_true (fun _ _ => trivial) hnodup
    (htimeless.allInsts Alternating.kept) (fun _ => htimeless) h

end Instrumenter

end FlowProfile
