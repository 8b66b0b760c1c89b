import FlowProfile.Proofs.Instrument.Repeated

/-!
# What calls install one after another

Each call that finds its entry function installs its strategies: it adds the arrays of their
passes and one call for each of them that registers these arrays. However often a program is
instrumented, no strategy is installed twice, because its arrays are there already. Of the two that
count edges each has arrays of its own, so that nothing keeps one call from adding one to the other.
-/

namespace FlowProfile

/-! ### Registrations -/

namespace Program

variable {splitting : Prop} {added : Inst → Prop} {p q : Program}

/-- How many such instructions a program has. -/
def instCount (counted : Inst → Bool) (p : Program) : ℕ :=
  (p.functions.map (·.instCount counted)).sum

/-- The calls that register a strategy. -/
def initializers (s : Strategy) (p : Program) : ℕ := p.instCount (Inst.registers s)

theorem Edited.instCount_eq (h : p.Edited splitting added q) {counted : Inst → Bool}
    (hadd : ∀ inst, added inst → counted inst = false) :
    q.instCount counted = p.instCount counted :=
  congrArg List.sum (h.map_eq fun _ _ hfg => hfg.instCount_eq hadd)

theorem instCount_insert {i : ℕ} {b : BlockId} {block : Block} {index : ℕ} {inst : Inst}
    (hb : p.block? i b = some block) (hi : index ≤ block.insts.length) (counted : Inst → Bool) :
    (p.insert i b index inst).instCount counted =
      p.instCount counted + if counted inst then 1 else 0 := by
  obtain ⟨f, hf, hb⟩ := block?_eq_some_iff.mp hb
  have hsum := sum_map_modify p.functions hf (·.insert b index inst) (·.instCount counted)
  rw [Function.instCount_insert hb hi] at hsum
  simp only [instCount, insert]
  omega

theorem instCount_update {i : ℕ} {b : BlockId} {index : ℕ} {inst : Inst}
    (h : (p.update i fun f => f.insertAt b index inst) = .ok q) (counted : Inst → Bool) :
    q.instCount counted = p.instCount counted + if counted inst then 1 else 0 := by
  obtain ⟨rfl, block, hb, hi⟩ := update_insertAt h
  exact instCount_insert hb hi counted

theorem instCount_congr (h : q.functions = p.functions) (counted : Inst → Bool) :
    q.instCount counted = p.instCount counted := by
  rw [instCount, instCount, h]

theorem instCount_eq_zero {counted : Inst → Bool}
    (h : ∀ inst, p.HasInst inst → counted inst = false) : p.instCount counted = 0 := by
  refine List.sum_eq_zero fun n hn => ?_
  obtain ⟨f, hf, rfl⟩ := List.mem_map.mp hn
  refine List.sum_eq_zero fun n hn => ?_
  obtain ⟨block, hb, rfl⟩ := List.mem_map.mp hn
  obtain ⟨i, hi⟩ := List.mem_iff_getElem?.mp hf
  obtain ⟨b, hb⟩ := List.mem_iff_getElem?.mp hb
  refine List.countP_eq_zero.mpr fun inst hinst => ?_
  simp [h inst ⟨i, b, block, block?_eq_some_iff.mpr ⟨f, hi, hb⟩, hinst⟩]

theorem IsPlain.initializers_eq_zero (hp : p.IsPlain) (s : Strategy) : p.initializers s = 0 :=
  instCount_eq_zero fun _ hinst =>
    (Inst.neutral_of_isOriginal (hp.hasInst hinst).isOriginal s).2

end Program

theorem Strategy.registers_registration (s t : Strategy) :
    s.registration.registers t = decide (s = t) := by
  by_cases h : s = t
  · simp [h, Inst.registers, registration, Inst.callee?]
  · have hne : s.entryPoint ≠ t.entryPoint := fun heq => h (entryPoint_injective heq)
    simp [h, hne, Inst.registers, registration, Inst.callee?]

theorem Pass.Adds.registers_eq_false {values : Operand → Prop} {len : ℕ} {pass : Pass}
    {inst : Inst} (h : pass.Adds values len inst) (s : Strategy) : inst.registers s = false := by
  cases h <;> rfl

/-- The names of the arrays of some strategies, in the order in which these are applied. -/
def arrays (strategies : List Strategy) : List String :=
  (strategies.flatMap Strategy.passes).map Pass.counters

/-- `q` has more arrays than `p` and more calls that register arrays: those of the strategies. Each
of these is new, and its arrays are declared once. -/
structure Program.Installs (strategies : List Strategy) (p q : Program) : Prop where
  initializers : ∀ s, q.initializers s = p.initializers s + strategies.count s
  names : q.globals.map (·.name) = p.globals.map (·.name) ++ arrays strategies
  grows : p.Grows (fun _ => True) (· ∈ strategies) q
  nodup : strategies.Nodup
  declared : ∀ s ∈ strategies, ∀ pass ∈ s.passes,
    p.global? pass.counters = none ∧ ∃ len, q.Declares (pass.global len)

namespace Program.Installs

variable {p q r : Program} {ss ts : List Strategy}

theorem refl (p : Program) : p.Installs [] p :=
  ⟨fun _ => rfl, (List.append_nil _).symm, .refl p, List.nodup_nil, by simp⟩

/-- What is installed cannot be installed again, because its arrays are there. -/
theorem not_mem (hpq : p.Installs ss q) (hqr : q.Installs ts r) {s : Strategy} (hs : s ∈ ss) :
    s ∉ ts := by
  intro ht
  obtain ⟨pass, hpass⟩ := List.exists_mem_of_ne_nil s.passes (Instrumenter.passes_ne_nil s)
  obtain ⟨-, len, hdecl⟩ := hpq.declared s hs pass hpass
  exact hdecl.global?_ne_none (hqr.declared s ht pass hpass).1

theorem append (hpq : p.Installs ss q) (hqr : q.Installs ts r) : p.Installs (ss ++ ts) r where
  initializers s := by
    rw [hqr.initializers, hpq.initializers, List.count_append, Nat.add_assoc]
  names := by
    rw [hqr.names, hpq.names, arrays, arrays, arrays, List.flatMap_append, List.map_append,
      List.append_assoc]
  grows := (hpq.grows.mono fun _ hs => List.mem_append_left ts hs).trans
    (hqr.grows.mono fun _ ht => List.mem_append_right ss ht)
  nodup := List.nodup_append.mpr ⟨hpq.nodup, hqr.nodup, fun _ hs _ ht heq =>
    hpq.not_mem hqr hs (heq ▸ ht)⟩
  declared s hs pass hpass := by
    rcases List.mem_append.mp hs with hs | hs
    · obtain ⟨hnone, len, hdecl⟩ := hpq.declared s hs pass hpass
      exact ⟨hnone, len, hqr.grows.declares _ hdecl⟩
    · obtain ⟨hnone, hdecl⟩ := hqr.declared s hs pass hpass
      exact ⟨hpq.grows.global?_eq_none hnone, hdecl⟩

end Program.Installs

namespace Instrumenter

variable {ins : Instrumenter} {blocks : List ℕ} {p q r : Program} {main : ℕ}

/-! ### One call -/

/-- Passes add their arrays, in order, and no calls. -/
theorem passes_install {passes : List Pass} (hblocks : blocks.length = p.functions.length)
    (h : passes.foldlM (ins.pass blocks) p = .ok q) :
    (∀ s, q.initializers s = p.initializers s) ∧
      q.globals.map (·.name) = p.globals.map (·.name) ++ passes.map Pass.counters := by
  induction passes generalizing p with
  | nil =>
      obtain rfl : p = q := by simpa using h
      exact ⟨fun _ => rfl, (List.append_nil _).symm⟩
  | cons pass passes ih =>
      rw [List.foldlM_cons, Outcome.bind_eq_ok_iff] at h
      obtain ⟨mid, hmid, h⟩ := h
      obtain ⟨-, hglobals, hedited⟩ := pass_spec hblocks p.copies_true (fun _ _ => trivial) hmid
      obtain ⟨hcalls, hnames⟩ := ih (hblocks.trans hedited.length_eq.symm) h
      refine ⟨fun s => ?_, ?_⟩
      · exact (hcalls s).trans (hedited.instCount_eq fun inst ha => ha.registers_eq_false s)
      · rw [hnames, hglobals, List.map_append, List.append_assoc]
        rfl

theorem apply_installs (hblocks : blocks.length = p.functions.length) {s : Strategy}
    (h : ins.apply blocks main p s = .ok q) : p.Installs [s] q := by
  obtain ⟨hgrows, hall⟩ := apply_grows hblocks p.copies_true (fun _ _ => trivial) h
  simp only [apply, Outcome.bind_eq_ok_iff] at h
  obtain ⟨passed, hpassed, hregister⟩ := h
  obtain ⟨hcalls, hnames⟩ := passes_install hblocks hpassed
  obtain ⟨hglobals, -⟩ := Program.update_insertAtStart_edited hregister
  refine ⟨fun t => ?_, ?_, hgrows.mono fun t ht => List.mem_singleton.mpr ht,
    List.nodup_singleton s, fun t ht pass hpass => ?_⟩
  · have hcount := Program.instCount_update hregister (Inst.registers t)
    rw [s.registers_registration t] at hcount
    rw [← hcalls t, List.count_singleton]
    simpa [Program.initializers] using hcount
  · rw [hglobals, hnames, arrays, List.flatMap_singleton]
  · obtain rfl := List.mem_singleton.mp ht
    obtain ⟨hnone, len, hdecl, -⟩ := hall pass hpass
    exact ⟨hnone, len, hdecl⟩

theorem strategies_install {strategies : List Strategy}
    (hblocks : blocks.length = p.functions.length)
    (h : strategies.foldlM (ins.apply blocks main) p = .ok q) : p.Installs strategies q := by
  induction strategies generalizing p with
  | nil =>
      obtain rfl : p = q := by simpa using h
      exact .refl p
  | cons s strategies ih =>
      rw [List.foldlM_cons, Outcome.bind_eq_ok_iff] at h
      obtain ⟨mid, hmid, h⟩ := h
      have hfirst := apply_installs hblocks hmid
      exact hfirst.append (ih (hblocks.trans hfirst.grows.edited.length_eq.symm) h)

/-- The strategies that a call installs: all of its own, if the entry function is there. -/
def applied (ins : Instrumenter) (p : Program) : List Strategy :=
  if (p.functionIndex? ins.entry).isSome then ins.strategies else []

theorem applied_congr {splitting : Prop} {added : Inst → Prop} (h : p.Edited splitting added q)
    (ins : Instrumenter) : ins.applied q = ins.applied p := by
  rw [applied, applied, h.functionIndex?_eq]

theorem instrument_installs (h : ins.instrument p = .ok q) :
    p.Installs (ins.applied p) q ∧ ¬(.edge ∈ ins.applied p ∧ .edgeRank ∈ ins.applied p) := by
  cases hmain : p.functionIndex? ins.entry with
  | none =>
      rw [instrument_of_functionIndex?_eq_none (instrument_edited h).1 hmain] at h
      obtain rfl := Except.ok.inj h
      have happlied : ins.applied p = [] := by simp [applied, hmain]
      rw [happlied]
      exact ⟨.refl p, by simp⟩
  | some main =>
      obtain ⟨-, -, hone, happly⟩ := instrument_eq_ok hmain h
      have happlied : ins.applied p = ins.strategies := by simp [applied, hmain]
      rw [happlied]
      exact ⟨strategies_install (List.length_map ..) happly, hone⟩

/-! ### Many calls -/

/-- Instruments a program by each of the calls in turn. -/
def instrumentAll (calls : List Instrumenter) (p : Program) : Outcome Program :=
  calls.foldlM (fun p ins => ins.instrument p) p

/-- The strategies that the calls install. -/
def appliedAll (calls : List Instrumenter) (p : Program) : List Strategy :=
  calls.flatMap (·.applied p)

theorem appliedAll_congr {splitting : Prop} {added : Inst → Prop}
    (h : p.Edited splitting added q) (calls : List Instrumenter) :
    appliedAll calls q = appliedAll calls p :=
  congrArg (calls.flatMap ·) (funext fun ins => applied_congr h ins)

theorem instrumentAll_installs {calls : List Instrumenter} (h : instrumentAll calls p = .ok q) :
    p.Installs (appliedAll calls p) q ∧
      ∀ ins ∈ calls, ¬(.edge ∈ ins.applied p ∧ .edgeRank ∈ ins.applied p) := by
  induction calls generalizing p with
  | nil =>
      obtain rfl : p = q := by simpa [instrumentAll] using h
      exact ⟨.refl p, by simp⟩
  | cons ins calls ih =>
      rw [instrumentAll, List.foldlM_cons, Outcome.bind_eq_ok_iff] at h
      obtain ⟨mid, hmid, h⟩ := h
      obtain ⟨hfirst, hapart⟩ := instrument_installs hmid
      obtain ⟨hrest, hapartRest⟩ := ih h
      -- a call finds its entry function whatever was installed before
      have hedited := hfirst.grows.edited
      rw [appliedAll_congr hedited] at hrest
      simp only [applied_congr hedited] at hapartRest
      exact ⟨hfirst.append hrest, List.forall_mem_cons.mpr ⟨hapart, hapartRest⟩⟩

/-- However often a plain program is instrumented, it has one array for each pass of the strategies
that were installed, and one call for each of these strategies. None is installed twice: a call that
has one of them fails, and so does one that has both strategies that count edges. -/
theorem instrumentAll_once {calls : List Instrumenter} (hp : p.IsPlain)
    (h : instrumentAll calls p = .ok q) :
    (∀ s, q.initializers s = (appliedAll calls p).count s ∧ q.initializers s ≤ 1) ∧
      q.globals.map (·.name) = p.globals.map (·.name) ++ arrays (appliedAll calls p) ∧
      (∀ s ∈ appliedAll calls p, ∀ pass ∈ s.passes, ∃ len, q.Declares (pass.global len)) ∧
      (∀ ins ∈ calls, ¬(.edge ∈ ins.applied p ∧ .edgeRank ∈ ins.applied p)) ∧
      ∀ ins : Instrumenter, ((∃ s ∈ ins.applied p, s ∈ appliedAll calls p) ∨
          (.edge ∈ ins.applied p ∧ .edgeRank ∈ ins.applied p)) →
        ∃ failure, ins.instrument q = .error failure := by
  obtain ⟨hall, hapart⟩ := instrumentAll_installs h
  have hcount : ∀ s, q.initializers s = (appliedAll calls p).count s := fun s => by
    rw [hall.initializers, hp.initializers_eq_zero, Nat.zero_add]
  refine ⟨fun s => ⟨hcount s, ?_⟩, hall.names, fun s hs pass hpass =>
    (hall.declared s hs pass hpass).2, hapart, fun ins hagain => ?_⟩
  · rw [hcount]
    exact List.nodup_iff_count_le_one.mp hall.nodup s
  · cases hins : ins.instrument q with
    | error failure => exact ⟨failure, rfl⟩
    | ok r =>
        obtain ⟨hnext, hapartNext⟩ := instrument_installs hins
        rw [applied_congr hall.grows.edited ins] at hnext hapartNext
        rcases hagain with ⟨s, hs, hold⟩ | hboth
        · exact absurd hs (hall.not_mem hnext hold)
        · exact absurd hboth hapartNext

end Instrumenter

/-- Two calls, one for each strategy that counts edges. -/
def edgesTwice : List Instrumenter := [⟨[.edge], "main", []⟩, ⟨[.edgeRank], "main", []⟩]

theorem instrumentAll_once_shortcut :
    ∃ q, Instrumenter.instrumentAll edgesTwice shortcut = .ok q ∧
    q.initializers .edge = 1 ∧ q.initializers .edgeRank = 1 ∧ q.initializers .rank = 0 ∧
    ∃ failure, Instrumenter.instrument ⟨[.time, .edge], "main", []⟩ q = .error failure := by
  have hins : Instrumenter.instrumentAll edgesTwice shortcut = .ok _ := rfl
  obtain ⟨hcounts, -, -, -, hagain⟩ := Instrumenter.instrumentAll_once (by decide) hins
  exact ⟨_, hins, (hcounts .edge).1, (hcounts .edgeRank).1, (hcounts .rank).1,
    hagain _ (.inl ⟨.edge, by decide, by decide⟩)⟩

/-- Each of two calls can count the edges of the same program: both have their arrays and the calls
that register them. -/
theorem instrumentAll_not_exclusive :
    ¬∀ (p q : Program) (calls : List Instrumenter), p.IsValid → p.IsPlain →
      Instrumenter.instrumentAll calls p = .ok q →
      ¬∀ s ∈ [Strategy.edge, .edgeRank], q.initializers s ≠ 0 ∧
        ∀ pass ∈ s.passes, (q.global? pass.counters).isSome := by
  intro h
  exact h shortcut _ edgesTwice (by decide) (by decide) rfl (by decide)

end FlowProfile
