import FlowProfile.Proofs.Instrument.TimedCalls

/-!
# The timer along a run

There is one timer. A start during a measured call takes the timer from it for good, so that in a
run that returns no timer is started while a call is measured.
-/

namespace FlowProfile

/-! ### Numbers in slots -/

/-- The number in a slot, if the array is one of numbers. -/
def CounterArray.number? (slot : ℕ) : CounterArray → Option Binary64
  | .f64 slots => slots[slot]?
  | _ => none

namespace Counters

variable {cs : Counters} {name other : String} {k slot : ℕ} {x : Binary64}

theorem f64Slot_eq (cs : Counters) (name : String) (slot : ℕ) :
    cs.f64Slot name slot =
      .ofOption (.noF64Slot slot name) ((cs.get? name).bind (CounterArray.number? slot)) := by
  unfold f64Slot
  cases cs.get? name with
  | none => rfl
  | some array => cases array <;> rfl

theorem f64Slot_modify {change : CounterArray → CounterArray}
    (h : name = other → ∀ array, (change array).number? slot = array.number? slot) :
    Counters.f64Slot (cs.modify name change) other slot = cs.f64Slot other slot := by
  rw [f64Slot_eq, f64Slot_eq, bind_modify cs h]

@[simp] theorem f64Slot_setU64 (cs : Counters) (name other : String) (k slot : ℕ) (n : UInt64) :
    (cs.setU64 name k n).f64Slot other slot = cs.f64Slot other slot := by
  refine f64Slot_modify fun _ array => ?_
  cases array <;> rfl

@[simp] theorem f64Slot_setI32 (cs : Counters) (name other : String) (k slot : ℕ) (n : Int32) :
    (cs.setI32 name k n).f64Slot other slot = cs.f64Slot other slot := by
  refine f64Slot_modify fun _ array => ?_
  cases array <;> rfl

/-- Setting one number sets no other. -/
theorem f64Slot_setF64_ne (h : ¬(name = other ∧ k = slot)) :
    (cs.setF64 name k x).f64Slot other slot = cs.f64Slot other slot := by
  refine f64Slot_modify fun hname array => ?_
  have hk : k ≠ slot := fun hk => h ⟨hname, hk⟩
  cases array <;> simp [CounterArray.number?, hk]

theorem f64Slot_setF64_self {old : Binary64} (h : cs.f64Slot name slot = .ok old) :
    (cs.setF64 name slot x).f64Slot name slot = .ok x := by
  obtain ⟨slots, hget, hslot⟩ := f64Slot_eq_ok_iff.mp h
  obtain ⟨hlt, -⟩ := Array.getElem?_eq_some_iff.mp hslot
  refine f64Slot_eq_ok_iff.mpr ⟨slots.setIfInBounds slot x, ?_, ?_⟩
  · simp [setF64, Table.get?_modify, hget]
  · simp [hlt]

end Counters

/-! ### Steps of the timer -/

namespace Machine

variable {σ : Type} {p : Program} {host : Host σ} {m m' : Machine σ} {inst : Inst}
  {counters : String} {slot depth : ℕ}

/-- What does not use the timer leaves it as it is. -/
theorem Executes.timer_eq (h : Executes p m inst m') (hinst : inst.Timeless) :
    m'.timer = m.timer := by
  cases h with
  | timerStart => exact absurd rfl hinst.ne_timerStart
  | timerStop => cases hinst.1
  | _ => rfl

theorem Executes.f64Slot_eq (h : Executes p m inst m') (hinst : inst.addsTo counters slot = false) :
    m'.counters.f64Slot counters slot = m.counters.f64Slot counters slot := by
  cases h with
  | addWeight sum => exact Counters.f64Slot_setF64_ne (by simpa [Inst.addsTo] using hinst)
  | timerStop state timer sum =>
      exact Counters.f64Slot_setF64_ne (by simpa [Inst.addsTo] using hinst)
  | increment => exact Counters.f64Slot_setU64 ..
  | store => exact Counters.f64Slot_setI32 ..
  | accumulate => simp
  | _ => rfl

/-- A stop takes the timer, and adds the time since its start to the slot. -/
theorem timer_of_stop (h : m.execute p host depth (.timerStop counters slot) = .proceed m') :
    ∃ start sum, m.timer = some start ∧ m'.timer = none ∧
      m.counters.f64Slot counters slot = .ok sum ∧
      m'.counters.f64Slot counters slot = .ok (sum + ((host.now m.host).2 - start)) := by
  simp only [execute, stopTimer] at h
  cases ht : m.timer with
  | none => simp [ht] at h
  | some start =>
      simp only [ht, addTo] at h
      cases hsum : m.counters.f64Slot counters slot with
      | error failure => simp [hsum, Effect.of] at h
      | ok sum =>
          simp only [hsum, Effect.of, Effect.proceed.injEq] at h
          subst h
          exact ⟨start, sum, rfl, rfl, rfl, Counters.f64Slot_setF64_self hsum⟩

end Machine

namespace Config

variable {σ : Type} {p q : Program} {host : Host σ} {c d : Config σ} {visit : Option Visit}

/-- Is the timer started next, while a call is measured? -/
def Nests (c : Config σ) : Prop :=
  c.frame.rest.head? = some .timerStart ∧ ∃ f ∈ c.callers, timing f.rest = true

/-- The calls that are measured. -/
def measured (c : Config σ) : ℕ := c.frames.countP (timing ·.rest)

theorem timing_frameAt (hq : q.AllInsts Alternating) {function : ℕ} {b : BlockId} {frame : Frame}
    (hf : q.frameAt function b = .ok frame) : timing frame.rest = false := by
  obtain ⟨block, hb, rfl⟩ := Program.frameAt_eq_ok_iff.mp hf
  exact (hq function b block hb).idle

/-- A start begins to measure a call, and a stop ends it. -/
theorem Moves.measured (hq : q.AllInsts Alternating) (hframes : ∀ f ∈ c.frames, f.IsIn q)
    (h : Moves q host c visit d) :
    d.measured + (if c.frame.rest.head?.any Inst.stopsTimer then 1 else 0) =
      c.measured + if c.frame.rest.head? = some .timerStart then 1 else 0 := by
  have hcurrent := hframes c.frame List.mem_cons_self
  cases h with
  | @proceed m m' function b inst rest callers he =>
      obtain ⟨block, hb, hsuffix⟩ := hcurrent
      obtain ⟨hstarts, hstops, -⟩ := (hq function b block hb).alternates.suffix hsuffix
      simp only [Config.measured, frames, List.countP_cons, List.head?_cons, Option.any_some]
      rcases inst.timer_cases with rfl | hs | htimeless
      · simp [hstarts rfl, timing, Inst.stopsTimer]
      · have hne : inst ≠ .timerStart := by
          rintro rfl
          cases hs
        simp [hstops hs, timing_of_stops hs, hs, hne]
      · simp [timing_cons htimeless, htimeless.1, htimeless.ne_timerStart]
  | @enter m m' function callee b inst rest callers frame he hf =>
      obtain ⟨callee, args, _, rfl, -⟩ := Machine.exists_call_of_enter he
      simp only [Config.measured, frames, List.countP_cons, List.head?_cons, Option.any_some,
        timing_frameAt hq hf, timing_cons (.call callee args)]
      simp [Inst.stopsTimer]
  | follow he hf => simp [Config.measured, frames, timing_frameAt hq hf, timing]
  | back he => simp [Config.measured, frames, timing]

theorem Moves.timer_eq (h : Moves q host c visit d)
    (hinst : ∀ inst, c.frame.rest.head? = some inst → inst.Timeless) :
    d.machine.timer = c.machine.timer := by
  rcases h.executes with ⟨inst, hhead, hexec⟩ | ⟨-, hsame⟩
  · exact hexec.timer_eq (hinst inst hhead)
  · rw [hsame]

/-- A stop finds the timer that it takes. -/
theorem Moves.timer_of_stop (h : Moves q host c visit d) {counters : String} {slot : ℕ}
    (hinst : c.frame.rest.head? = some (.timerStop counters slot)) :
    ∃ start sum, c.machine.timer = some start ∧ d.machine.timer = none ∧
      c.machine.counters.f64Slot counters slot = .ok sum ∧
      d.machine.counters.f64Slot counters slot =
        .ok (sum + ((host.now c.machine.host).2 - start)) :=
  Machine.timer_of_stop (h.proceeds hinst rfl)

theorem Moves.timer_of_start (h : Moves q host c visit d)
    (hinst : c.frame.rest.head? = some .timerStart) :
    d.machine.timer = some (host.now c.machine.host).2 := by
  rw [← Effect.proceed.inj (h.proceeds hinst rfl)]

theorem Moves.f64Slot_eq (h : Moves q host c visit d) (counters : String) (slot : ℕ)
    (hinst : ∀ inst, c.frame.rest.head? = some inst → inst.addsTo counters slot = false) :
    d.machine.counters.f64Slot counters slot = c.machine.counters.f64Slot counters slot := by
  rcases h.executes with ⟨inst, hhead, hexec⟩ | ⟨-, hsame⟩
  · exact hexec.f64Slot_eq (hinst inst hhead)
  · rw [hsame]

/-- The next instruction starts the timer, or stops it, or is none that uses it. -/
theorem timer_cases (c : Config σ) :
    c.frame.rest.head? = some .timerStart ∨
      (∃ counters slot, c.frame.rest.head? = some (.timerStop counters slot)) ∨
      ∀ inst, c.frame.rest.head? = some inst → inst.Timeless := by
  cases hhead : c.frame.rest.head? with
  | none => exact .inr (.inr nofun)
  | some inst =>
      rcases inst.timer_cases with rfl | hs | htimeless
      · exact .inl rfl
      · cases inst with
        | timerStop counters slot => exact .inr (.inl ⟨counters, slot, rfl⟩)
        | _ => cases hs
      · refine .inr (.inr fun inst' heq => ?_)
        obtain rfl := Option.some.inj heq
        exact htimeless

/-! ### Starts during a measured call -/

/-- One call at most is measured as long as no timer is started during it. -/
theorem Moves.measured_le (hq : q.AllInsts Alternating) (hframes : ∀ f ∈ c.frames, f.IsIn q)
    (hapart : ¬c.Nests) (hone : c.measured ≤ 1) (h : Moves q host c visit d) : d.measured ≤ 1 := by
  have hcount := h.measured hq hframes
  by_cases hstart : c.frame.rest.head? = some .timerStart
  · have hnone : c.measured = 0 := by
      refine List.countP_eq_zero.mpr fun f hf htiming => ?_
      rcases List.mem_cons.mp hf with rfl | hf
      · obtain ⟨rest, hrest⟩ := List.head?_eq_some_iff.mp hstart
        rw [hrest] at htiming
        cases htiming
      · exact hapart ⟨hstart, f, hf, htiming⟩
    rw [hnone, if_pos hstart] at hcount
    omega
  · rw [if_neg hstart] at hcount
    omega

/-- Some call that is measured has lost its timer, or will have lost it when those inside of it
are over. -/
def Lost (c : Config σ) : Prop :=
  2 ≤ c.measured ∨ 1 ≤ c.measured ∧ c.machine.timer = none

theorem Moves.lost (hq : q.AllInsts Alternating) (hframes : ∀ f ∈ c.frames, f.IsIn q)
    (h : Moves q host c visit d) (hc : c.Nests ∨ c.Lost) : d.Lost := by
  have hcount := h.measured hq hframes
  have hpos : 1 ≤ c.measured := by
    rcases hc with ⟨-, f, hf, htiming⟩ | hlost | ⟨hlost, -⟩
    · exact List.countP_pos_iff.mpr ⟨f, List.mem_cons_of_mem _ hf, htiming⟩
    · omega
    · exact hlost
  rcases c.timer_cases with hstart | ⟨counters, slot, hstop⟩ | htimeless
  · simp only [hstart, Option.any_some, Inst.stopsTimer] at hcount
    exact .inl (by simp at hcount; omega)
  · -- the stop takes the timer of the innermost call that is measured
    obtain ⟨start, _, htimer, hnone, -⟩ := h.timer_of_stop hstop
    have htwo : 2 ≤ c.measured := by
      rcases hc with ⟨hstart, -⟩ | hlost | ⟨-, hlost⟩
      · rw [hstop] at hstart
        cases hstart
      · exact hlost
      · rw [htimer] at hlost
        cases hlost
    simp only [hstop, Option.any_some, Inst.stopsTimer] at hcount
    exact .inr ⟨by simp at hcount; omega, hnone⟩
  · have hsame : d.measured = c.measured := by
      cases hhead : c.frame.rest.head? with
      | none => simpa [hhead] using hcount
      | some inst =>
          have hinst := htimeless inst hhead
          simpa [hhead, hinst.1, hinst.ne_timerStart] using hcount
    rw [Lost, hsame, h.timer_eq htimeless]
    refine hc.resolve_left fun hnests => ?_
    exact (htimeless _ hnests.1).ne_timerStart rfl

theorem Passes.apart_or_lost (hq : q.AllInsts Alternating) {m : Machine σ} {main : ℕ}
    {entry : Block} (hb : q.block? main 0 = some entry) {vs : List Visit} {n : ℕ}
    (h : Passes q host ⟨m, ⟨main, 0, entry.insts⟩, []⟩ vs n d) :
    (∀ c ∈ trace q host n ⟨m, ⟨main, 0, entry.insts⟩, []⟩, ¬c.Nests) ∨ d.Lost := by
  induction h with
  | start => exact .inl nofun
  | @move vs n d e visit h hm ih =>
      have hlost := hm.lost hq (h.coherent hb).frames
      rcases ih with hapart | hd
      · by_cases hnests : d.Nests
        · exact .inr (hlost (.inl hnests))
        · rw [h.trace_succ hm]
          refine .inl fun c hc => ?_
          rcases List.mem_append.mp hc with hc | hc
          · exact hapart c hc
          · exact List.mem_singleton.mp hc ▸ hnests
      · exact .inr (hlost (.inr hd))

end Config

namespace Program

variable {σ : Type} {p q : Program} {host : Host σ} {state : σ} {limit : ℕ}

/-- No timer is started while a call is measured. -/
def MeasuresApart (q : Program) (host : Host σ) (state : σ) (limit : ℕ) : Prop :=
  ∀ c ∈ q.trace host state limit, ¬c.Nests

/-- A run that returns has started no timer while a call was measured. -/
theorem measuresApart_of_run (hq : q.AllInsts Alternating) {args : List String} {m : Machine σ}
    {records : List Record} (h : q.run host state limit args = (m, .ok records)) :
    q.MeasuresApart host state limit := by
  obtain ⟨main, entry, vs, n, d, hb, hp, htrace, -, hrest, hcallers, -⟩ := exists_trace_eq h
  have hidle : d.measured = 0 := by
    simp [Config.measured, Config.frames, hrest, hcallers, timing]
  have hapart := (hp.apart_or_lost hq hb).resolve_right fun hlost => by
    rw [Config.Lost, hidle] at hlost
    omega
  intro c hc
  rw [htrace, List.mem_append, List.mem_singleton] at hc
  rcases hc with hc | rfl
  · exact hapart c hc
  · rintro ⟨hstart, -⟩
    rw [hrest] at hstart
    cases hstart

end Program

end FlowProfile
