import FlowProfile.Proofs.Exec.Timers

/-!
# Intervals along a run

As long as no timer is started while a call is measured, each stop finds what the start before its
own call has set, and the slot of a site holds the sum of the times that its calls took.
-/

namespace FlowProfile

/-! ### Places of an interval -/

namespace Interval

variable {q : Program} {v : Interval} {f : Frame}

/-- What stands between the start and the stop. -/
def inner (v : Interval) : List Inst := v.lead ++ v.call :: v.between

/-- The places behind the start, up to the stop. -/
def places (v : Interval) : List Frame :=
  v.inner.tails.map fun xs => ⟨v.function, v.block, xs ++ v.stop.rest⟩

/-- The interval stands in a block, and nothing in it uses the timer. -/
structure StandsIn (v : Interval) (q : Program) : Prop where
  start : v.start.IsIn q
  timeless : ∀ inst ∈ v.inner, inst.Timeless

theorem mem_places : f ∈ v.places ↔
    ∃ xs, xs <:+ v.inner ∧ f = ⟨v.function, v.block, xs ++ v.stop.rest⟩ := by
  simp [places, eq_comm]

theorem start_rest (v : Interval) : v.start.rest = .timerStart :: (v.inner ++ v.stop.rest) := by
  simp [start, inner, calling]

theorem stop_mem_places (v : Interval) : v.stop ∈ v.places :=
  mem_places.mpr ⟨[], List.nil_suffix, rfl⟩

theorem rest_ne_nil (h : f ∈ v.places) : f.rest ≠ [] := by
  obtain ⟨xs, -, rfl⟩ := mem_places.mp h
  simp [stop]

/-- Nothing of an interval is left where a block is at its end. -/
theorem end_outside (v : Interval) (function : ℕ) (b : BlockId) :
    (⟨function, b, []⟩ : Frame) ∉ v.places ∧ (⟨function, b, []⟩ : Frame) ≠ v.start ∧
      (⟨function, b, []⟩ : Frame) ≠ v.stop := by
  have hend : (⟨function, b, []⟩ : Frame) ∉ v.places := fun hmem => v.rest_ne_nil hmem rfl
  refine ⟨hend, fun heq => ?_, fun heq => hend (heq ▸ v.stop_mem_places)⟩
  have hrest := v.start_rest
  rw [← heq] at hrest
  cases hrest

namespace StandsIn

theorem timing_of_mem (h : v.StandsIn q) (hf : f ∈ v.places) : timing f.rest = true := by
  obtain ⟨xs, hxs, rfl⟩ := mem_places.mp hf
  exact timing_append (fun inst hmem => h.timeless inst (hxs.subset hmem)) v.stop.rest

theorem start_not_mem (h : v.StandsIn q) : v.start ∉ v.places := by
  intro hmem
  have htiming := h.timing_of_mem hmem
  rw [start_rest] at htiming
  cases htiming

theorem start_ne_stop (h : v.StandsIn q) : v.start ≠ v.stop :=
  fun heq => h.start_not_mem (heq ▸ v.stop_mem_places)

/-- Inside an interval there is what was there before the last instruction, or its start. -/
theorem behind_iff (h : v.StandsIn q) {function : ℕ} {b : BlockId} {inst : Inst} {rest : List Inst}
    (hin : Frame.IsIn q ⟨function, b, inst :: rest⟩) :
    (⟨function, b, rest⟩ : Frame) ∈ v.places ↔
      (⟨function, b, inst :: rest⟩ : Frame) = v.start ∨
        (⟨function, b, inst :: rest⟩ : Frame) ∈ v.places ∧
          (⟨function, b, inst :: rest⟩ : Frame) ≠ v.stop := by
  have hstart : Frame.IsIn q ⟨v.function, v.block, v.start.rest⟩ := h.start
  rw [start_rest] at hstart
  constructor
  · intro hmem
    obtain ⟨xs, ⟨ys, hinner⟩, heq⟩ := mem_places.mp hmem
    obtain ⟨rfl, rfl, rfl⟩ := Frame.mk.inj heq
    rcases List.eq_nil_or_concat ys with rfl | ⟨zs, z, rfl⟩
    · rw [List.nil_append] at hinner
      subst hinner
      refine .inl ?_
      rw [hin.eq_of_cons hstart, ← start_rest]
      rfl
    · -- the instruction before is one of the interval
      have hbehind : z :: (xs ++ v.stop.rest) <:+ v.inner ++ v.stop.rest := by
        rw [← hinner]
        simp [List.suffix_append]
      have hz : Frame.IsIn q ⟨v.function, v.block, z :: (xs ++ v.stop.rest)⟩ :=
        hstart.suffix (hbehind.trans (List.suffix_cons _ _))
      obtain rfl := hin.eq_of_cons hz
      have hsuffix : inst :: xs <:+ v.inner := ⟨zs, by rw [← hinner]; simp⟩
      refine .inr ⟨mem_places.mpr ⟨inst :: xs, hsuffix, rfl⟩, fun hstop => ?_⟩
      have htimeless := h.timeless inst (hsuffix.subset List.mem_cons_self)
      obtain ⟨-, -, hrest⟩ := Frame.mk.inj hstop
      rw [(List.cons.inj hrest).1] at htimeless
      cases htimeless.1
  · rintro (heq | ⟨hmem, hne⟩)
    · obtain ⟨rfl, rfl, hrest⟩ := Frame.mk.inj heq
      have hrest' : inst :: rest = .timerStart :: (v.inner ++ v.stop.rest) :=
        hrest.trans v.start_rest
      rw [(List.cons.inj hrest').2]
      exact mem_places.mpr ⟨v.inner, List.suffix_rfl, rfl⟩
    · obtain ⟨xs, hxs, heq⟩ := mem_places.mp hmem
      cases xs with
      | nil => exact absurd heq hne
      | cons x xs =>
          obtain ⟨rfl, rfl, hrest⟩ := Frame.mk.inj heq
          rw [(List.cons.inj hrest).2]
          exact mem_places.mpr ⟨xs, (List.suffix_cons x xs).trans hxs, rfl⟩

/-- The step over an instruction comes into an interval at its start, and out of it at its stop. -/
theorem count_behind (h : v.StandsIn q) {function : ℕ} {b : BlockId} {inst : Inst}
    {rest : List Inst} (hin : Frame.IsIn q ⟨function, b, inst :: rest⟩) :
    (if (⟨function, b, rest⟩ : Frame) ∈ v.places then 1 else 0) +
        (if (⟨function, b, inst :: rest⟩ : Frame) = v.stop then 1 else 0) =
      (if (⟨function, b, inst :: rest⟩ : Frame) ∈ v.places then 1 else 0) +
        if (⟨function, b, inst :: rest⟩ : Frame) = v.start then 1 else 0 := by
  simp only [h.behind_iff hin]
  by_cases hstart : (⟨function, b, inst :: rest⟩ : Frame) = v.start
  · simp [hstart, h.start_not_mem, h.start_ne_stop]
  · by_cases hstop : (⟨function, b, inst :: rest⟩ : Frame) = v.stop
    · simp [hstop, v.stop_mem_places, h.start_ne_stop.symm]
    · simp [hstart, hstop]

end StandsIn

end Interval

/-! ### What a run finds at a place -/

namespace Interval

variable {σ : Type} {q : Program} {host : Host σ} {v : Interval}

/-- The times at which the timer was started. -/
def starts (host : Host σ) (v : Interval) (trace : List (Config σ)) : List Binary64 :=
  whenever (fun c => (host.now c.machine.host).2) v.start trace

/-- The times at which it was stopped. -/
def stops (host : Host σ) (v : Interval) (trace : List (Config σ)) : List Binary64 :=
  whenever (fun c => (host.now c.machine.host).2) v.stop trace

/-- The timer that each stop found. -/
def timers (v : Interval) (trace : List (Config σ)) : List (Option Binary64) :=
  whenever (·.machine.timer) v.stop trace

/-- How long each call took: the first stop belongs to the first start, and so on. -/
def elapsed (host : Host σ) (v : Interval) (trace : List (Config σ)) : List Binary64 :=
  List.zipWith (· - ·) (v.stops host trace) (v.starts host trace)

theorem starts_append_singleton (past : List (Config σ)) (c : Config σ) :
    v.starts host (past ++ [c]) = v.starts host past ++
      if c.frame = v.start then [(host.now c.machine.host).2] else [] :=
  whenever_append_singleton ..

theorem stops_append_singleton (past : List (Config σ)) (c : Config σ) :
    v.stops host (past ++ [c]) = v.stops host past ++
      if c.frame = v.stop then [(host.now c.machine.host).2] else [] :=
  whenever_append_singleton ..

theorem timers_append_singleton (past : List (Config σ)) (c : Config σ) :
    v.timers (past ++ [c]) = v.timers past ++
      if c.frame = v.stop then [c.machine.timer] else [] :=
  whenever_append_singleton ..

theorem length_timers (host : Host σ) (v : Interval) (trace : List (Config σ)) :
    (v.timers trace).length = (v.stops host trace).length := by
  rw [timers, stops, length_whenever, length_whenever]

end Interval

/-- A sum of numbers one after another, as a slot adds them up. -/
def Binary64.total (xs : List Binary64) : Binary64 := xs.foldl (· + ·) (.ofInt64 0)

namespace Config

variable {σ : Type} {p q : Program} {host : Host σ} {c d : Config σ} {visit : Option Visit}
  {v : Interval}

/-- The calls that are open inside an interval. -/
def inside (v : Interval) (c : Config σ) : ℕ := c.frames.countP (· ∈ v.places)

theorem inside_le (hv : v.StandsIn q) (c : Config σ) : c.inside v ≤ c.measured :=
  List.countP_mono_left fun f _ hf => hv.timing_of_mem (by simpa using hf)

theorem Moves.inside (hq : q.AllInsts Alternating) (hv : v.StandsIn q)
    (hframes : ∀ f ∈ c.frames, f.IsIn q) (h : Moves q host c visit d) :
    d.inside v + (if c.frame = v.stop then 1 else 0) =
      c.inside v + if c.frame = v.start then 1 else 0 := by
  have hbegin : ∀ {function b frame}, q.frameAt function b = .ok frame → frame ∉ v.places := by
    intro function b frame hf hmem
    have hidle := timing_frameAt hq hf
    rw [hv.timing_of_mem hmem] at hidle
    cases hidle
  have hcurrent := hframes c.frame List.mem_cons_self
  cases h with
  | @proceed m m' function b inst rest callers he =>
      have hcount := hv.count_behind hcurrent
      simp only [Config.inside, frames, List.countP_cons, decide_eq_true_eq]
      omega
  | @enter m m' function callee b inst rest callers frame he hf =>
      have hcount := hv.count_behind hcurrent
      simp only [Config.inside, frames, List.countP_cons, decide_eq_true_eq, hbegin hf]
      simp only [if_false]
      omega
  | @follow m function b callers frame visit he hf =>
      obtain ⟨hend, hstart, hstop⟩ := v.end_outside function b
      simp [Config.inside, frames, hbegin hf, hend, hstop, hstart]
  | @back m function b callers frame he =>
      obtain ⟨hend, hstart, hstop⟩ := v.end_outside function b
      simp [Config.inside, frames, hend, hstop, hstart]

/-- While a call is measured nothing uses the timer, if none is measured besides. -/
theorem timeless_of_inside (hv : v.StandsIn q) (hapart : ¬c.Nests) (hone : c.measured ≤ 1)
    (hinside : 0 < c.inside v) (hstop : c.frame ≠ v.stop) :
    ∀ inst, c.frame.rest.head? = some inst → inst.Timeless := by
  obtain ⟨f, hf, hplace⟩ := List.countP_pos_iff.mp hinside
  have hplace : f ∈ v.places := by simpa using hplace
  rcases List.mem_cons.mp hf with rfl | hf
  · obtain ⟨xs, hxs, heq⟩ := Interval.mem_places.mp hplace
    cases xs with
    | nil => exact absurd heq hstop
    | cons x xs =>
        intro inst hhead
        rw [heq] at hhead
        obtain rfl := Option.some.inj hhead
        exact hv.timeless x (hxs.subset List.mem_cons_self)
  · have htiming := hv.timing_of_mem hplace
    have hcallers : 0 < c.callers.countP (timing ·.rest) :=
      List.countP_pos_iff.mpr ⟨f, hf, htiming⟩
    rcases c.timer_cases with hstart | ⟨counters, slot, hhead⟩ | htimeless
    · exact absurd ⟨hstart, f, hf, htiming⟩ hapart
    · obtain ⟨rest, hrest⟩ := List.head?_eq_some_iff.mp hhead
      have hcurrent : timing c.frame.rest = true := by
        rw [hrest]
        rfl
      rw [measured, frames, List.countP_cons, if_pos hcurrent] at hone
      omega
    · exact htimeless

end Config

namespace Interval

variable {σ : Type} {q : Program} {host : Host σ} {v : Interval} {past : List (Config σ)}
  {c d : Config σ} {visit : Option Visit}

/-- Only the stop of the interval adds to its slot. -/
def AddsAlone (v : Interval) (q : Program) : Prop :=
  ∀ f inst rest, Frame.IsIn q f → f.rest = inst :: rest →
    inst.addsTo timeCounters v.slot = true → f = v.stop

/-- What holds of an interval after a part of a run: all starts but those of open calls were
followed by a stop that found their time, and the slot holds the sum of what the calls took. -/
structure Kept (host : Host σ) (v : Interval) (past : List (Config σ)) (c : Config σ) : Prop where
  timers : (v.starts host past).map some =
    v.timers past ++ List.replicate (c.inside v) c.machine.timer
  slot : c.machine.counters.f64Slot timeCounters v.slot = .ok (.total (v.elapsed host past))

theorem Kept.length_starts (h : v.Kept host past c) :
    (v.starts host past).length = (v.stops host past).length + c.inside v := by
  have hlen := congrArg List.length h.timers
  rwa [List.length_map, List.length_append, List.length_replicate, length_timers host] at hlen

/-- A step from the start of the interval. -/
theorem Kept.start (hq : q.AllInsts Alternating) (hv : v.StandsIn q)
    (hframes : ∀ f ∈ c.frames, f.IsIn q) (hapart : ¬c.Nests) (hstart : c.frame = v.start)
    (h : Config.Moves q host c visit d) (hc : v.Kept host past c) :
    v.Kept host (past ++ [c]) d := by
  have hhead : c.frame.rest.head? = some .timerStart := by
    rw [hstart]
    rfl
  have hstop : c.frame ≠ v.stop := hstart ▸ hv.start_ne_stop
  -- no call is measured yet
  have hnone : c.inside v = 0 := by
    refine List.countP_eq_zero.mpr fun f hf hplace => ?_
    have hplace : f ∈ v.places := by simpa using hplace
    rcases List.mem_cons.mp hf with rfl | hf
    · exact hv.start_not_mem (hstart ▸ hplace)
    · exact hapart ⟨hhead, f, hf, hv.timing_of_mem hplace⟩
  have hone : d.inside v = 1 := by
    have hinside := h.inside hq hv hframes
    rw [hnone, if_pos hstart, if_neg hstop] at hinside
    omega
  obtain ⟨htimers, hslot⟩ := hc
  constructor
  · rw [hnone, List.replicate_zero, List.append_nil] at htimers
    rw [starts_append_singleton, timers_append_singleton, if_pos hstart, if_neg hstop, hone,
      h.timer_of_start hhead, List.map_append, htimers, List.append_nil]
    rfl
  · have hlen : (v.stops host past).length = (v.starts host past).length := by
      rw [Kept.length_starts ⟨htimers, hslot⟩, hnone, Nat.add_zero]
    have hsame := h.f64Slot_eq timeCounters v.slot fun inst heq => by
      obtain rfl := Option.some.inj (hhead.symm.trans heq)
      rfl
    rw [hsame, hslot, elapsed, elapsed, starts_append_singleton, stops_append_singleton,
      if_pos hstart, if_neg hstop, List.zipWith_append hlen]
    simp

/-- At its stop the call that is over is the only one that was measured. -/
theorem inside_stop (hv : v.StandsIn q) (hone : c.measured ≤ 1) (hstop : c.frame = v.stop) :
    c.inside v = 1 := by
  have hle := Config.inside_le hv c
  have hpos : 0 < c.inside v := List.countP_pos_iff.mpr
    ⟨c.frame, List.mem_cons_self, by simpa [hstop] using v.stop_mem_places⟩
  omega

/-- A step from its stop. -/
theorem Kept.stop (hq : q.AllInsts Alternating) (hv : v.StandsIn q)
    (hframes : ∀ f ∈ c.frames, f.IsIn q) (hone : c.measured ≤ 1) (hstop : c.frame = v.stop)
    (h : Config.Moves q host c visit d) (hc : v.Kept host past c) :
    v.Kept host (past ++ [c]) d := by
  have hhead : c.frame.rest.head? = some (.timerStop timeCounters v.slot) := by
    rw [hstop]
    rfl
  have hstart : c.frame ≠ v.start := fun heq => hv.start_ne_stop (heq.symm.trans hstop)
  have hinside := inside_stop hv hone hstop
  have hnone : d.inside v = 0 := by
    have hcount := h.inside hq hv hframes
    rw [hinside, if_pos hstop, if_neg hstart] at hcount
    omega
  obtain ⟨htimers, hslot⟩ := hc
  rw [hinside, List.replicate_one] at htimers
  obtain ⟨start, sum, htimer, -, hsum, hnew⟩ := h.timer_of_stop hhead
  constructor
  · rw [starts_append_singleton, timers_append_singleton, if_neg hstart, if_pos hstop, hnone,
      List.replicate_zero, List.append_nil, List.append_nil, htimers]
  · obtain ⟨earlier, last, hstarts, hearlier, hlast⟩ := List.map_eq_append_iff.mp htimers
    obtain rfl : last = [start] := by simpa [htimer, List.map_eq_cons_iff] using hlast
    have hlen : (v.stops host past).length = earlier.length := by
      rw [← length_timers, ← hearlier, List.length_map]
    obtain rfl : .total (v.elapsed host past) = sum := Except.ok.inj (hslot.symm.trans hsum)
    have helapsed : v.elapsed host past = List.zipWith (· - ·) (v.stops host past) earlier := by
      have happend : List.zipWith (· - ·) (v.stops host past ++ []) (earlier ++ [start]) =
        List.zipWith (· - ·) (v.stops host past) earlier ++ [] := List.zipWith_append hlen
      rwa [List.append_nil, List.append_nil, ← hstarts] at happend
    rw [hnew, helapsed, elapsed, starts_append_singleton, stops_append_singleton, if_neg hstart,
      if_pos hstop, List.append_nil, hstarts, List.zipWith_append hlen]
    simp [Binary64.total, List.foldl_append]

/-- A step from anywhere else. -/
theorem Kept.other (hq : q.AllInsts Alternating) (hv : v.StandsIn q) (halone : v.AddsAlone q)
    (hframes : ∀ f ∈ c.frames, f.IsIn q) (hapart : ¬c.Nests) (hone : c.measured ≤ 1)
    (hstart : c.frame ≠ v.start) (hstop : c.frame ≠ v.stop)
    (h : Config.Moves q host c visit d) (hc : v.Kept host past c) :
    v.Kept host (past ++ [c]) d := by
  have hinside : d.inside v = c.inside v := by
    have hcount := h.inside hq hv hframes
    rwa [if_neg hstart, if_neg hstop] at hcount
  obtain ⟨htimers, hslot⟩ := hc
  constructor
  · have hsame : List.replicate (d.inside v) d.machine.timer =
        List.replicate (c.inside v) c.machine.timer := by
      rw [hinside]
      rcases Nat.eq_zero_or_pos (c.inside v) with hzero | hpos
      · rw [hzero]
        rfl
      · rw [h.timer_eq (Config.timeless_of_inside hv hapart hone hpos hstop)]
    rw [starts_append_singleton, timers_append_singleton, if_neg hstart, if_neg hstop, hsame,
      List.append_nil, List.append_nil, htimers]
  · have hsame := h.f64Slot_eq timeCounters v.slot fun inst heq => by
      obtain ⟨rest, hrest⟩ := List.head?_eq_some_iff.mp heq
      rw [Bool.eq_false_iff]
      exact fun hadds => hstop (halone _ inst rest (hframes _ List.mem_cons_self) hrest hadds)
    rw [hsame, hslot, elapsed, elapsed, starts_append_singleton, stops_append_singleton,
      if_neg hstart, if_neg hstop, List.append_nil, List.append_nil]

theorem Kept.move (hq : q.AllInsts Alternating) (hv : v.StandsIn q) (halone : v.AddsAlone q)
    (hframes : ∀ f ∈ c.frames, f.IsIn q) (hapart : ¬c.Nests) (hone : c.measured ≤ 1)
    (h : Config.Moves q host c visit d) (hc : v.Kept host past c) :
    v.Kept host (past ++ [c]) d := by
  by_cases hstart : c.frame = v.start
  · exact hc.start hq hv hframes hapart hstart h
  · by_cases hstop : c.frame = v.stop
    · exact hc.stop hq hv hframes hone hstop h
    · exact hc.other hq hv halone hframes hapart hone hstart hstop h

end Interval

namespace Config

variable {σ : Type} {q : Program} {host : Host σ} {c d : Config σ} {visit : Option Visit}
  {v : Interval}

/-- What holds of an interval at every moment of a run. -/
theorem Passes.kept (hq : q.AllInsts Alternating) (hv : v.StandsIn q) (halone : v.AddsAlone q)
    {m : Machine σ} (hm : m.counters.f64Slot timeCounters v.slot = .ok (.ofInt64 0)) {main : ℕ}
    {entry : Block} (hb : q.block? main 0 = some entry) {vs : List Visit} {n : ℕ}
    (h : Passes q host ⟨m, ⟨main, 0, entry.insts⟩, []⟩ vs n d)
    (hapart : ∀ c ∈ trace q host n ⟨m, ⟨main, 0, entry.insts⟩, []⟩, ¬c.Nests) :
    d.measured ≤ 1 ∧ v.Kept host (trace q host n ⟨m, ⟨main, 0, entry.insts⟩, []⟩) d := by
  induction h with
  | start =>
      have hidle : measured ⟨m, ⟨main, 0, entry.insts⟩, []⟩ = 0 := by
        simp [measured, frames, (hq main 0 entry hb).idle]
      have hnone : inside v ⟨m, ⟨main, 0, entry.insts⟩, []⟩ = 0 :=
        Nat.le_zero.mp (hidle ▸ inside_le hv _)
      refine ⟨hidle ▸ Nat.zero_le 1, ?_, hm⟩
      rw [hnone]
      rfl
  | @move vs n d e visit h hm' ih =>
      rw [h.trace_succ hm'] at hapart ⊢
      obtain ⟨hone, hkept⟩ := ih fun c hc => hapart c (List.mem_append_left _ hc)
      have hlast := hapart d (List.mem_append_right _ (List.mem_singleton_self d))
      have hframes := (h.coherent hb).frames
      exact ⟨hm'.measured_le hq hframes hlast hone,
        hkept.move hq hv halone hframes hlast hone hm'⟩

end Config

/-! ### Exact intervals -/

namespace Interval

variable {σ : Type} {q : Program} {host : Host σ} {v : Interval} {past : List (Config σ)}
  {c : Config σ}

/-- The timer is the interval's own wherever it is stopped, and the slot holds at every moment what
the calls took that are over. -/
structure IsExact (host : Host σ) (v : Interval) (trace : List (Config σ)) : Prop where
  /-- There is one start for each stop, and the stop finds the time of its start. -/
  paired : ∀ past c rest, trace = past ++ c :: rest → c.frame = v.stop →
    ∃ earlier start, c.machine.timer = some start ∧ v.starts host past = earlier ++ [start] ∧
      earlier.length = past.countP (·.frame = v.stop)
  summed : ∀ past c rest, trace = past ++ c :: rest →
    c.machine.counters.f64Slot timeCounters v.slot = .ok (.total (v.elapsed host past))

theorem Kept.paired (hv : v.StandsIn q) (hone : c.measured ≤ 1) (h : v.Kept host past c)
    (hstop : c.frame = v.stop) :
    ∃ earlier start, c.machine.timer = some start ∧ v.starts host past = earlier ++ [start] ∧
      earlier.length = past.countP (·.frame = v.stop) := by
  have hinside := inside_stop hv hone hstop
  have htimers := h.timers
  rw [hinside, List.replicate_one] at htimers
  obtain ⟨earlier, last, hstarts, hearlier, hlast⟩ := List.map_eq_append_iff.mp htimers
  obtain ⟨start, rfl, htimer⟩ : ∃ start, last = [start] ∧ c.machine.timer = some start := by
    obtain ⟨start, rest, rfl, hstart, hrest⟩ := List.map_eq_cons_iff.mp hlast
    obtain rfl := List.map_eq_nil_iff.mp hrest
    exact ⟨start, rfl, hstart.symm⟩
  refine ⟨earlier, start, htimer, hstarts, ?_⟩
  have hlen := length_whenever (·.machine.timer) v.stop past
  rwa [show whenever (·.machine.timer) v.stop past = v.timers past from rfl, ← hearlier,
    List.length_map] at hlen

end Interval

namespace Program

variable {σ : Type} {q : Program} {host : Host σ} {state : σ} {limit : ℕ} {v : Interval}

theorem MeasuresApart.isExact (h : q.MeasuresApart host state limit) (hq : q.AllInsts Alternating)
    (hv : v.StandsIn q) (halone : v.AddsAlone q)
    (hinit : (Counters.initial q).f64Slot timeCounters v.slot = .ok (.ofInt64 0)) :
    v.IsExact host (q.trace host state limit) := by
  have hkept : ∀ past c rest, q.trace host state limit = past ++ c :: rest →
      c.measured ≤ 1 ∧ v.Kept host past c := by
    intro past c rest htrace
    obtain ⟨main, entry, vs, hb, hp, hpast⟩ := exists_passes_of_trace htrace
    have hapart : ∀ c ∈ past, ¬c.Nests := fun c hc => h c (htrace ▸ List.mem_append_left _ hc)
    have hkept := hp.kept hq hv halone hinit hb (hpast ▸ hapart)
    rwa [← hpast] at hkept
  constructor
  · intro past c rest htrace hstop
    obtain ⟨hone, hkept⟩ := hkept past c rest htrace
    exact hkept.paired hv hone hstop
  · intro past c rest htrace
    exact (hkept past c rest htrace).2.slot

end Program

end FlowProfile
