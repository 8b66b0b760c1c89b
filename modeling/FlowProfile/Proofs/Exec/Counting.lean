import FlowProfile.Proofs.Exec.Trace

/-!
# Counting along a run

How often a run enters a function, runs a block and takes an edge. A block is left as
often as it was begun, except for the calls that are still open, and what a block's
instructions add up is added once for each visit.
-/

namespace FlowProfile

/-! ### Visits -/

/-- The calls of a function. -/
def activations (vs : List Visit) (function : ℕ) : ℕ :=
  vs.countP fun v => v.function = function ∧ v.edge = none

/-- The runs of a block. -/
def executions (vs : List Visit) (function : ℕ) (b : BlockId) : ℕ :=
  vs.countP fun v => v.function = function ∧ v.block = b

/-- The times that control left a block by the given place among its successors. -/
def departures (vs : List Visit) (function : ℕ) (b : BlockId) (succ : ℕ) : ℕ :=
  vs.countP fun v => v.function = function ∧ v.edge = some (b, succ)

/-- The runs of some blocks of a function. -/
def begun (vs : List Visit) (function : ℕ) (inside : BlockId → Bool) : ℕ :=
  vs.countP fun v => v.function = function ∧ inside v.block

/-- The times that control left some blocks of a function, by any edge. -/
def left (vs : List Visit) (function : ℕ) (inside : BlockId → Bool) : ℕ :=
  vs.countP fun v => v.function = function ∧ v.edge.any (inside ·.1)

/-- A visit begins a function, or follows an edge that the program has. -/
def Visit.Fits (p : Program) (v : Visit) : Prop :=
  match v.edge with
  | none => v.block = 0
  | some (b, succ) =>
    ∃ block, p.block? v.function b = some block ∧ block.terminator.successors[succ]? = some v.block

theorem Program.follow_fits {p : Program} {function : ℕ} {b : BlockId} {vars : Variables}
    {visit : Visit} (h : p.follow function b vars = .ok (some visit)) : visit.Fits p := by
  obtain ⟨f, block, succ, dest, hf, hb, -, hd, rfl⟩ := Program.follow_eq_ok_some_iff.mp h
  exact ⟨block, Program.block?_eq_some_iff.mpr ⟨f, hf, hb⟩, hd⟩

theorem Program.IsValid.successor_ne_zero {p : Program} (hp : p.IsValid) {function : ℕ}
    {b : BlockId} {block : Block} (hb : p.block? function b = some block) {dest : BlockId}
    (hd : dest ∈ block.terminator.successors) : dest ≠ 0 := by
  obtain ⟨f, hf, hb⟩ := Program.block?_eq_some_iff.mp hb
  exact (hp f (List.mem_of_getElem? hf) block (List.mem_of_getElem? hb) dest hd).2

/-- The entry is begun by calls alone. -/
theorem executions_zero {p : Program} (hp : p.IsValid) {vs : List Visit}
    (hv : ∀ v ∈ vs, v.Fits p) (function : ℕ) :
    executions vs function 0 = activations vs function := by
  apply List.countP_congr
  intro v hmem
  have hfits := hv v hmem
  unfold Visit.Fits at hfits
  cases hedge : v.edge with
  | none => simp_all
  | some edge =>
      simp only [hedge] at hfits
      obtain ⟨block, hb, hd⟩ := hfits
      have hne := hp.successor_ne_zero hb (List.mem_of_getElem? hd)
      simp [hne]

/-- A block that only one edge enters is begun whenever that edge is taken. -/
theorem executions_eq_departures {p : Program} {vs : List Visit} (hv : ∀ v ∈ vs, v.Fits p)
    {function : ℕ} {dest b : BlockId} {succ : ℕ} {block : Block} (hdest : dest ≠ 0)
    (hb : p.block? function b = some block) (hs : block.terminator.successors[succ]? = some dest)
    (honly : ∀ b' block' succ', p.block? function b' = some block' →
      block'.terminator.successors[succ']? = some dest → (b', succ') = (b, succ)) :
    executions vs function dest = departures vs function b succ := by
  apply List.countP_congr
  intro v hmem
  have hfits := hv v hmem
  unfold Visit.Fits at hfits
  simp only [decide_eq_true_eq]
  constructor
  · rintro ⟨rfl, rfl⟩
    cases hedge : v.edge with
    | none =>
        simp only [hedge] at hfits
        exact absurd hfits hdest
    | some edge =>
        simp only [hedge] at hfits
        obtain ⟨block', hb', hs'⟩ := hfits
        exact ⟨rfl, congrArg some (honly edge.1 block' edge.2 hb' hs')⟩
  · rintro ⟨rfl, hedge⟩
    simp only [hedge] at hfits
    obtain ⟨block', hb', hs'⟩ := hfits
    obtain rfl : block = block' := Option.some.inj (hb.symm.trans hb')
    exact ⟨rfl, Option.some.inj (hs'.symm.trans hs)⟩

/-- A block with one successor is left by its only edge. -/
theorem left_eq_departures {p : Program} {vs : List Visit} (hv : ∀ v ∈ vs, v.Fits p)
    {function : ℕ} {b : BlockId} {block : Block} (hb : p.block? function b = some block)
    (hlen : block.terminator.successors.length = 1) :
    left vs function (· = b) = departures vs function b 0 := by
  apply List.countP_congr
  intro v hmem
  have hfits := hv v hmem
  unfold Visit.Fits at hfits
  cases hedge : v.edge with
  | none => simp
  | some edge =>
      obtain ⟨b', succ'⟩ := edge
      simp only [hedge] at hfits
      obtain ⟨block', hb', hs'⟩ := hfits
      simp only [Option.any_some, decide_eq_true_eq, Option.some.injEq, Prod.mk.injEq]
      constructor
      · rintro ⟨rfl, rfl⟩
        obtain rfl : block = block' := Option.some.inj (hb.symm.trans hb')
        obtain ⟨hlt, -⟩ := List.getElem?_eq_some_iff.mp hs'
        exact ⟨rfl, rfl, by omega⟩
      · rintro ⟨rfl, rfl, rfl⟩
        exact ⟨rfl, rfl⟩

/-! ### Open calls -/

def Config.frames {σ : Type} (c : Config σ) : List Frame := c.frame :: c.callers

/-- The frame stands in a block of the program. -/
def Frame.IsIn (p : Program) (f : Frame) : Prop :=
  ∃ block, p.block? f.function f.block = some block ∧ f.rest <:+ block.insts

theorem Frame.IsIn.suffix {p : Program} {function : ℕ} {b : BlockId} {insts rest : List Inst}
    (h : Frame.IsIn p ⟨function, b, insts⟩) (hrest : rest <:+ insts) :
    Frame.IsIn p ⟨function, b, rest⟩ := by
  obtain ⟨block, hb, hr⟩ := h
  exact ⟨block, hb, hrest.trans hr⟩

theorem Frame.IsIn.tail {p : Program} {function : ℕ} {b : BlockId} {inst : Inst}
    {rest : List Inst} (h : Frame.IsIn p ⟨function, b, inst :: rest⟩) :
    Frame.IsIn p ⟨function, b, rest⟩ := h.suffix (List.suffix_cons inst rest)

theorem Frame.hasInst {p : Program} {f : Frame} {inst : Inst} (h : f.IsIn p)
    (hinst : f.rest.head? = some inst) : p.HasInst inst := by
  obtain ⟨block, hb, hr⟩ := h
  exact ⟨f.function, f.block, block, hb, hr.subset (List.mem_of_mem_head? hinst)⟩

theorem Program.frameAt_isIn {p : Program} {function : ℕ} {b : BlockId} {frame : Frame}
    (h : p.frameAt function b = .ok frame) : frame.IsIn p := by
  obtain ⟨block, hb, rfl⟩ := Program.frameAt_eq_ok_iff.mp h
  exact ⟨block, hb, List.suffix_rfl⟩

/-- The open calls that stand in some blocks of a function. -/
def standing (frames : List Frame) (function : ℕ) (inside : BlockId → Bool) : ℕ :=
  frames.countP fun f => f.function = function ∧ inside f.block

/-- None of the blocks returns. -/
def Program.Goes (p : Program) (function : ℕ) (inside : BlockId → Bool) : Prop :=
  ∀ b block, inside b → p.block? function b = some block → block.terminator ≠ .ret

theorem Terminator.exit_eq_ok_none_iff {t : Terminator} {name : String} {vars : Variables} :
    t.exit name vars = .ok none ↔ t = .ret := by
  cases t with
  | br target => simp [exit]
  | condBr cond thenBlock elseBlock => simp [exit]
  | switch value default cases => simp [exit]
  | ret => simp [exit]
  | unreachable => simp [exit]

/-- What holds of the visits of a run and of its open calls. -/
structure Config.Coherent {σ : Type} (p : Program) (vs : List Visit) (c : Config σ) : Prop where
  frames : ∀ f ∈ c.frames, f.IsIn p
  visits : ∀ v ∈ vs, v.Fits p
  balance : ∀ function inside, p.Goes function inside →
    begun vs function inside = left vs function inside + standing c.frames function inside

namespace Config

variable {σ : Type} {p : Program} {host : Host σ}

theorem Coherent.start {m : Machine σ} {function : ℕ} {block : Block}
    (hb : p.block? function 0 = some block) :
    Coherent p [⟨function, 0, none⟩] ⟨m, ⟨function, 0, block.insts⟩, []⟩ where
  frames := by
    intro f hf
    obtain rfl : f = ⟨function, 0, block.insts⟩ := by simpa [Config.frames] using hf
    exact ⟨block, hb, List.suffix_rfl⟩
  visits := by
    intro v hv
    obtain rfl : v = ⟨function, 0, none⟩ := by simpa using hv
    rfl
  balance := by
    intro function' inside _
    simp [begun, left, standing, Config.frames]

theorem Coherent.move {vs : List Visit} {c c' : Config σ} {v : Option Visit}
    (h : Coherent p vs c) (hm : Moves p host c v c') : Coherent p (vs ++ v.toList) c' := by
  obtain ⟨hframes, hvisits, hbalance⟩ := h
  cases hm with
  | @proceed m m' function b inst rest callers he =>
      refine ⟨?_, by simpa using hvisits, ?_⟩
      · simp only [Config.frames, List.forall_mem_cons] at hframes ⊢
        exact ⟨hframes.1.tail, hframes.2⟩
      · intro function' inside hgoes
        simpa [standing, Config.frames, List.countP_cons] using hbalance function' inside hgoes
  | @enter m m' function callee b inst rest callers frame he hf =>
      obtain ⟨target, htarget, rfl⟩ := Program.frameAt_eq_ok_iff.mp hf
      refine ⟨?_, ?_, ?_⟩
      · simp only [Config.frames, List.forall_mem_cons] at hframes ⊢
        exact ⟨Program.frameAt_isIn hf, hframes.1.tail, hframes.2⟩
      · simp only [Option.toList_some, List.forall_mem_append, List.forall_mem_singleton]
        exact ⟨hvisits, rfl⟩
      · intro function' inside hgoes
        have hold := hbalance function' inside hgoes
        simp only [begun, left, standing, Config.frames, Option.toList_some,
          List.countP_append, List.countP_cons, List.countP_nil, Option.any_none] at hold ⊢
        simp only [hold]
        simp
        omega
  | @follow m function b callers frame visit he hf =>
      obtain ⟨target, htarget, rfl⟩ := Program.frameAt_eq_ok_iff.mp hf
      refine ⟨?_, ?_, ?_⟩
      · simp only [Config.frames, List.forall_mem_cons] at hframes ⊢
        exact ⟨Program.frameAt_isIn hf, hframes.2⟩
      · simp only [Option.toList_some, List.forall_mem_append, List.forall_mem_singleton]
        exact ⟨hvisits, Program.follow_fits he⟩
      · obtain ⟨f, source, succ, dest, -, -, -, -, rfl⟩ := Program.follow_eq_ok_some_iff.mp he
        intro function' inside hgoes
        have hold := hbalance function' inside hgoes
        simp only [begun, left, standing, Config.frames, Option.toList_some,
          List.countP_append, List.countP_cons, List.countP_nil, Option.any_some,
          decide_eq_true_eq] at hold ⊢
        omega
  | @back m function b callers frame he =>
      obtain ⟨f, source, hf, hs, hexit⟩ := Program.follow_eq_ok_none_iff.mp he
      refine ⟨?_, by simpa using hvisits, ?_⟩
      · simp only [Config.frames, List.forall_mem_cons] at hframes ⊢
        exact hframes.2
      · intro function' inside hgoes
        have hold := hbalance function' inside hgoes
        have hother : ¬(function = function' ∧ inside b) := by
          rintro ⟨rfl, hin⟩
          exact hgoes b source hin (Program.block?_eq_some_iff.mpr ⟨f, hf, hs⟩)
            (Terminator.exit_eq_ok_none_iff.mp hexit)
        simp only [standing, Config.frames, List.countP_cons, decide_eq_true_eq, hother,
          if_false, Nat.add_zero] at hold ⊢
        simpa using hold

end Config

/-! ### What instructions add up -/

/-- How often the visited block has such an instruction. -/
def Visit.occurrences (p : Program) (counted : Inst → Bool) (v : Visit) : ℕ :=
  ((p.block? v.function v.block).map (·.insts.countP counted)).getD 0

/-- The instructions of open calls that are left. -/
def pending (counted : Inst → Bool) (frames : List Frame) : ℕ :=
  (frames.map (·.rest.countP counted)).sum

/-- A measure of the machine that the counted instructions of a program raise by one, and
that all its others keep. -/
def Measures {σ : Type} (p : Program) (host : Host σ) (counted : Inst → Bool)
    (measure : Machine σ → ℕ) : Prop :=
  ∀ inst, p.HasInst inst → ∀ m depth m', (m.execute p host depth inst).next? = some m' →
    measure m' = measure m + if counted inst then 1 else 0

/-- The visits sum up to one block, if such instructions stand only there, and once. -/
theorem sum_occurrences {p : Program} {counted : Inst → Bool} {function : ℕ} {b : BlockId}
    {block : Block} (hb : p.block? function b = some block)
    (honce : ∀ function' b' block', p.block? function' b' = some block' →
      block'.insts.countP counted = if function' = function ∧ b' = b then 1 else 0)
    (vs : List Visit) :
    (vs.map (Visit.occurrences p counted)).sum = executions vs function b := by
  induction vs with
  | nil => rfl
  | cons v vs ih =>
      have hv : v.occurrences p counted = if v.function = function ∧ v.block = b then 1 else 0 := by
        unfold Visit.occurrences
        cases hblock : p.block? v.function v.block with
        | some block' => simpa using honce v.function v.block block' hblock
        | none =>
            have hother : ¬(v.function = function ∧ v.block = b) := by
              rintro ⟨rfl, rfl⟩
              simp [hblock] at hb
            simp [hother]
      rw [List.map_cons, List.sum_cons, ih, hv, executions, executions, List.countP_cons]
      simp [Nat.add_comm]

namespace Config

variable {σ : Type} {p : Program} {host : Host σ}

theorem Moves.tally {counted : Inst → Bool} {measure : Machine σ → ℕ}
    (hmeasure : Measures p host counted measure) {c c' : Config σ} {v : Option Visit}
    (hframes : ∀ f ∈ c.frames, f.IsIn p) (hm : Moves p host c v c') :
    measure c'.machine + pending counted c'.frames =
      measure c.machine + pending counted c.frames +
        (v.toList.map (Visit.occurrences p counted)).sum := by
  cases hm with
  | @proceed m m' function b inst rest callers he =>
      have hin := Frame.hasInst (hframes _ List.mem_cons_self) rfl
      have hadd := hmeasure inst hin m callers.length m' (by rw [he]; rfl)
      simp only [Config.frames, pending, List.map_cons, List.sum_cons, List.countP_cons, hadd,
        Option.toList_none, List.map_nil, List.sum_nil]
      omega
  | @enter m m' function callee b inst rest callers frame he hf =>
      obtain ⟨target, htarget, rfl⟩ := Program.frameAt_eq_ok_iff.mp hf
      have hin := Frame.hasInst (hframes _ List.mem_cons_self) rfl
      have hadd := hmeasure inst hin m callers.length m' (by rw [he]; rfl)
      simp only [Config.frames, pending, List.map_cons, List.sum_cons, List.countP_cons, hadd,
        Option.toList_some, List.map_nil, List.sum_nil, Visit.occurrences, htarget,
        Option.map_some, Option.getD_some]
      omega
  | @follow m function b callers frame visit he hf =>
      obtain ⟨target, htarget, rfl⟩ := Program.frameAt_eq_ok_iff.mp hf
      simp only [Config.frames, pending, List.map_cons, List.sum_cons, List.countP_nil,
        Option.toList_some, List.map_nil, List.sum_nil, Visit.occurrences, htarget,
        Option.map_some, Option.getD_some]
      omega
  | @back m function b callers frame he =>
      simp [Config.frames, pending]

/-- The invariants of a run that begins a function: its visits and open calls are coherent,
and measures have grown by what the visited blocks hold and open calls have not yet done. -/
theorem Passes.coherent {m : Machine σ} {function : ℕ} {block : Block}
    (hb : p.block? function 0 = some block) {vs : List Visit} {n : ℕ} {d : Config σ}
    (h : Passes p host ⟨m, ⟨function, 0, block.insts⟩, []⟩ vs n d) :
    Coherent p (⟨function, 0, none⟩ :: vs) d := by
  induction h with
  | start => exact .start hb
  | move h hm ih =>
      rw [← List.cons_append]
      exact ih.move hm

theorem Passes.tally {counted : Inst → Bool} {measure : Machine σ → ℕ}
    (hmeasure : Measures p host counted measure) {m : Machine σ} {function : ℕ} {block : Block}
    (hb : p.block? function 0 = some block) {vs : List Visit} {n : ℕ} {d : Config σ}
    (h : Passes p host ⟨m, ⟨function, 0, block.insts⟩, []⟩ vs n d) :
    measure d.machine + pending counted d.frames =
      measure m + ((⟨function, 0, none⟩ :: vs).map (Visit.occurrences p counted)).sum := by
  induction h with
  | start => simp [Config.frames, pending, Visit.occurrences, hb]
  | @move vs n d e v h hm ih =>
      rw [hm.tally hmeasure (h.coherent hb).frames, ih, ← List.cons_append, List.map_append,
        List.sum_append]
      omega

end Config

/-! ### Runs that return -/

namespace Program

variable {σ : Type} {p : Program} {host : Host σ} {state : σ} {limit : ℕ} {args : List String}
  {m : Machine σ} {records : List Record}

/-- A run that returns comes from the entry of `main` to a return without open calls. -/
theorem exists_passes_of_run_eq_ok (h : p.run host state limit args = (m, .ok records)) :
    p.IsValid ∧ ∃ main block vs n d, p.block? main 0 = some block ∧
      p.visits host state limit = ⟨main, 0, none⟩ :: vs ∧ n < limit ∧
      Config.Passes p host (.entering p state main block) vs n d ∧
      d.step p host = .finished m := by
  obtain ⟨c, hstart, hrun, -⟩ := run_eq_ok_iff.mp h
  obtain ⟨hvalid, main, block, -, hb, rfl⟩ := start_eq_ok_iff.mp hstart
  obtain ⟨n, d, hn, hp, hd⟩ := Config.exists_passes_of_run_eq_ok hrun
  refine ⟨hvalid, main, block, _, n, d, hb, ?_, hn, hp, hd⟩
  rw [visits, hstart]

theorem length_visits_le (h : p.run host state limit args = (m, .ok records)) :
    (p.visits host state limit).length ≤ limit := by
  obtain ⟨-, main, block, vs, n, d, -, hvisits, hn, hp, -⟩ := exists_passes_of_run_eq_ok h
  have hlen := hp.length_le
  rw [hvisits, List.length_cons]
  omega

theorem visits_fit (h : p.run host state limit args = (m, .ok records)) :
    ∀ v ∈ p.visits host state limit, v.Fits p := by
  obtain ⟨-, main, block, vs, n, d, hb, hvisits, -, hp, -⟩ := exists_passes_of_run_eq_ok h
  rw [hvisits]
  exact (hp.coherent hb).visits

/-- Blocks without a return are left as often as they are begun. -/
theorem begun_eq_left (h : p.run host state limit args = (m, .ok records)) {function : ℕ}
    {inside : BlockId → Bool} (hgoes : p.Goes function inside) :
    begun (p.visits host state limit) function inside =
      left (p.visits host state limit) function inside := by
  obtain ⟨-, main, entry, vs, n, d, hb, hvisits, -, hp, hd⟩ := exists_passes_of_run_eq_ok h
  obtain ⟨-, -, hcallers, hfollow⟩ := Config.step_eq_finished_iff.mp hd
  have hbalance := (hp.coherent hb).balance function inside hgoes
  have hother : ¬(d.frame.function = function ∧ inside d.frame.block) := by
    rintro ⟨rfl, hin⟩
    obtain ⟨f, source, hf, hs, hexit⟩ := follow_eq_ok_none_iff.mp hfollow
    exact hgoes _ source hin (block?_eq_some_iff.mpr ⟨f, hf, hs⟩)
      (Terminator.exit_eq_ok_none_iff.mp hexit)
  rw [hvisits, hbalance]
  simp [standing, Config.frames, hcallers, hother]

/-- A block with one successor is begun as often as its only edge is taken. -/
theorem executions_eq_departures_zero (h : p.run host state limit args = (m, .ok records))
    {function : ℕ} {b : BlockId} {block : Block} (hb : p.block? function b = some block)
    (hlen : block.terminator.successors.length = 1) :
    executions (p.visits host state limit) function b =
      departures (p.visits host state limit) function b 0 := by
  have hgoes : p.Goes function (· = b) := by
    rintro b' block' hb' hblock' hret
    obtain rfl : b' = b := by simpa using hb'
    obtain rfl : block = block' := Option.some.inj (hb.symm.trans hblock')
    rw [hret] at hlen
    cases hlen
  rw [← left_eq_departures (visits_fit h) hb hlen, ← begun_eq_left h hgoes]
  simp [executions, begun]

/-- At the end of a run a measure has grown by what the visited blocks hold. -/
theorem measure_run {counted : Inst → Bool} {measure : Machine σ → ℕ}
    (hmeasure : Measures p host counted measure)
    (h : p.run host state limit args = (m, .ok records)) :
    measure m = measure (.initial p state) +
      ((p.visits host state limit).map (Visit.occurrences p counted)).sum := by
  obtain ⟨-, main, block, vs, n, d, hb, hvisits, -, hp, hd⟩ := exists_passes_of_run_eq_ok h
  obtain ⟨rfl, hrest, hcallers, -⟩ := Config.step_eq_finished_iff.mp hd
  have htally := hp.tally hmeasure hb
  have hpending : pending counted d.frames = 0 := by
    simp [pending, Config.frames, hrest, hcallers]
  rw [hvisits]
  omega

/-- What every instruction of the program keeps holds at the end if it held at first. -/
theorem invariant_run (kept : Machine σ → Prop)
    (hkept : ∀ inst, p.HasInst inst → ∀ m m', Machine.Executes p m inst m' → kept m → kept m')
    (hinit : kept (.initial p state)) (h : p.run host state limit args = (m, .ok records)) :
    kept m := by
  obtain ⟨-, main, block, vs, n, d, hb, -, -, hp, hd⟩ := exists_passes_of_run_eq_ok h
  obtain ⟨rfl, -, -, -⟩ := Config.step_eq_finished_iff.mp hd
  clear hd h
  induction hp with
  | start => exact hinit
  | @move vs n d e v hpasses hm ih =>
      rcases hm.executes with ⟨inst, hinst, hexec⟩ | ⟨-, hsame⟩
      · have hin := Frame.hasInst ((hpasses.coherent hb).frames d.frame List.mem_cons_self) hinst
        exact hkept inst hin _ _ hexec ih
      · exact hsame ▸ ih

end Program

end FlowProfile
