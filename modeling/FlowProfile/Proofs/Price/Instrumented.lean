import FlowProfile.Proofs.Price.Totals
import FlowProfile.Proofs.Profile.Rebinding

/-!
# Pricing through the instrumented program

An analyzer that is given the instrumented program counts the same calls and bytes as with the plain
one. The counters are free, but the calls that register strategies are not: each execution of the
entry block adds one instruction for each strategy.
-/

namespace FlowProfile

/-! ### Opcodes of an instrumented block -/

theorem Terminator.opcode_mapTargets (move : BlockId → BlockId) (t : Terminator) :
    (t.mapTargets move).opcode = t.opcode := by
  cases t <;> rfl

/-- The opcodes of all instructions that count. -/
def opcodesOf (insts : List Inst) : List String :=
  (insts.filter (!·.isInstrumentation)).map Inst.opcode

theorem opcodesOf_cons (inst : Inst) (insts : List Inst) : opcodesOf (inst :: insts) =
    if inst.isInstrumentation then opcodesOf insts else inst.opcode :: opcodesOf insts := by
  by_cases h : inst.isInstrumentation <;> simp [opcodesOf, h]

/-- What is added is a call that registers a strategy, or it does not count. -/
theorem Inst.Added.registered_or_free {values : Operand → Prop} {used : Strategy → Prop}
    {p : Program} {inst : Inst} (h : Inst.Added values used p inst) :
    (inst.registered? = none ∧ inst.isInstrumentation = true) ∨
      ∃ s : Strategy, inst = s.registration := by
  cases h with
  | pass _ _ _ ha =>
      refine .inl ⟨ha.registered?_eq_none, ?_⟩
      cases ha <;> rfl
  | @registration s _ _ => exact .inr ⟨s, rfl⟩

/-- Only registrations count among what was added. -/
theorem Woven.perm_opcodesOf {values : Operand → Prop} {used : Strategy → Prop} {p : Program}
    {xs ys : List Inst} (h : Woven (Inst.Added values used p) xs ys)
    (hxs : ∀ inst ∈ xs, inst.isOriginal = true) :
    (opcodesOf ys).Perm (List.replicate (registrations ys).length "call" ++ opcodesOf xs) := by
  induction h with
  | nil => exact .nil
  | @own inst xs ys _ ih =>
      rw [List.forall_mem_cons] at hxs
      have hnone : registrations (inst :: ys) = registrations ys :=
        List.filterMap_cons_none (Inst.registered?_of_isOriginal hxs.1)
      rw [hnone, opcodesOf_cons, opcodesOf_cons]
      split
      · exact ih hxs.2
      · exact ((ih hxs.2).cons _).trans List.perm_middle.symm
  | @add inst xs ys ha _ ih =>
      rw [opcodesOf_cons]
      obtain ⟨hnone, hfree⟩ | ⟨s, rfl⟩ := ha.registered_or_free
      · rw [if_pos hfree, registrations, List.filterMap_cons_none hnone]
        exact ih hxs
      · have hcall : s.registration.isInstrumentation = false := rfl
        rw [hcall, registrations, List.filterMap_cons_some s.registered?_registration]
        exact (ih hxs).cons "call"

namespace Instrumenter

variable {ins : Instrumenter} {p q : Program} {main : ℕ}

/-- The entry block has one more call for each strategy, and no other block has another opcode. -/
theorem perm_opcodes (hp : p.IsPlain) (hmain : p.functionIndex? ins.entry = some main)
    (hins : ins.instrument p = .ok q) {i : ℕ} {x : BlockId} {block block' : Block}
    (hb : p.block? i x = some block) (hb' : q.block? i x = some block') :
    block'.opcodes.Perm
      (List.replicate (if i = main ∧ x = 0 then ins.strategies.length else 0) "call" ++
        block.opcodes) := by
  obtain ⟨hvalid, -, -, happly⟩ := instrument_eq_ok hmain hins
  obtain ⟨hgrows, -, -⟩ := strategies_grow (List.length_map ..) p.copies_true
    (fun _ _ => trivial) happly
  obtain ⟨f, hf, hfb⟩ := Program.block?_eq_some_iff.mp hb
  obtain ⟨g, hg, hgb⟩ := Program.block?_eq_some_iff.mp hb'
  obtain ⟨_, hown, hwoven, hterm⟩ := ((hgrows.edited.get? hf hg).refines
    (hvalid f (List.mem_of_getElem? hf))).own x block hfb
  obtain rfl := Option.some.inj (hgb.symm.trans hown)
  have hregistered := (strategies_registersAt (List.length_map ..)
    (hp.isOriginal.registersAt main) happly i x block' hb').eq
  have hlength : (registrations block'.insts).length =
      if i = main ∧ x = 0 then ins.strategies.length else 0 := by
    rw [hregistered, List.append_nil]
    split <;> simp
  have hperm := hwoven.perm_opcodesOf fun inst hmem => (hp.block hb).1 inst hmem |>.isOriginal
  rw [hlength] at hperm
  have hopcode : block'.terminator.opcode = block.terminator.opcode := by
    rw [← hterm, Terminator.opcode_mapTargets]
  rw [Block.opcodes, Block.opcodes, hopcode, ← List.append_assoc]
  exact hperm.append_right _

/-- No block gets shorter. -/
theorem length_opcodes_le (hp : p.IsPlain) (hins : ins.instrument p = .ok q) {f : Function}
    {block : Block} (hf : f ∈ p.functions) (hb : block ∈ f.blocks) :
    ∃ g ∈ q.functions, ∃ block' ∈ g.blocks, block.opcodes.length ≤ block'.opcodes.length := by
  cases hmain : p.functionIndex? ins.entry with
  | none =>
      simp only [instrument, hmain, Outcome.bind_eq_ok_iff, Outcome.pure_eq_ok_iff] at hins
      obtain ⟨-, -, rfl⟩ := hins
      exact ⟨f, hf, block, hb, le_rfl⟩
  | some main =>
      obtain ⟨hvalid, used, hgrows, -⟩ := instrument_grows hp.isOriginal hins
      obtain ⟨i, hi⟩ := List.mem_iff_getElem?.mp hf
      obtain ⟨x, hx⟩ := List.mem_iff_getElem?.mp hb
      obtain ⟨g, hg, hfg⟩ := hgrows.edited.exists_right hi
      obtain ⟨block', hx', -⟩ := (hfg.refines (hvalid f hf)).own x block hx
      have hperm := perm_opcodes hp hmain hins (Program.block?_eq_some_iff.mpr ⟨f, hi, hx⟩)
        (Program.block?_eq_some_iff.mpr ⟨g, hg, hx'⟩)
      refine ⟨g, List.mem_of_getElem? hg, block', List.mem_of_getElem? hx', ?_⟩
      rw [hperm.length_eq, List.length_append]
      exact Nat.le_add_left _ _

end Instrumenter

namespace Price

/-- Runs of one opcode. -/
def Tally.ofRuns (opcode : String) (n : ℕ) : Tally :=
  ⟨n, 0, 0, fun other => if other = opcode then n else 0⟩

namespace Analyzer

variable {a : Analyzer} {b b' : Binding} {p q : Program}

/-- The sum of what the blocks weigh, each as often as it was executed. -/
def weigh (a : Analyzer) (b : Binding) (weight : Block → ℕ) : ℕ :=
  ((a.blocks b).map fun entry => entry.2.toNat * weight entry.1).sum

/-- What one function weighs, which is nothing if it is ignored. -/
def functionWeight (a : Analyzer) (b : Binding) (weight : Block → ℕ) (f : Function × ℕ) : ℕ :=
  if f.1.name ∈ a.ignore then 0 else
    (f.1.blocks.zipIdx.map fun x => (b.executionCount f.2 x.2).toNat * weight x.1).sum

theorem weigh_eq (weight : Block → ℕ) :
    a.weigh b weight = (b.program.functions.zipIdx.map (a.functionWeight b weight)).sum := by
  unfold weigh blocks counted Program.definedFunctions
  induction b.program.functions.zipIdx with
  | nil => rfl
  | cons f fs ih =>
      rw [List.map_cons, List.sum_cons, ← ih, functionWeight]
      cases hdecl : f.1.isDeclaration with
      | true =>
          have hnil : f.1.blocks = [] := List.isEmpty_iff.mp hdecl
          rw [List.filter_cons_of_neg (by simp [hdecl]), hnil]
          simp
      | false =>
          rw [List.filter_cons_of_pos (by simp [hdecl])]
          by_cases hignored : f.1.name ∈ a.ignore
          · rw [List.filter_cons_of_neg (by simp [hignored]), if_pos hignored, Nat.zero_add]
          · rw [List.filter_cons_of_pos (by simp [hignored]), List.map_cons, List.flatMap_cons,
              List.map_append, List.sum_append, if_neg hignored, List.map_map]
            rfl

/-- A function weighs more by what its entry block does. -/
theorem functionWeight_add {f g : Function} {weight : Block → ℕ} {i c : ℕ} (hname : g.name = f.name)
    (hlength : g.blocks.length = f.blocks.length) (hpos : 0 < f.blocks.length ∨ c = 0)
    (hweight : ∀ x block block', f.blocks[x]? = some block → g.blocks[x]? = some block' →
      weight block' = weight block + if x = 0 then c else 0) :
    a.functionWeight b weight (g, i) = a.functionWeight b weight (f, i) +
      if f.name ∈ a.ignore then 0 else (b.executionCount i 0).toNat * c := by
  unfold functionWeight
  rw [hname]
  split
  case isTrue => rfl
  case isFalse =>
      have hsum := sum_map_zipIdx_add
        (fun x : Block × ℕ => (b.executionCount i x.2).toNat * weight x.1)
        (fun x : Block × ℕ => (b.executionCount i x.2).toNat * weight x.1) 0 0
        ((b.executionCount i 0).toNat * c) hlength fun x block block' hx hx' => by
          rw [Nat.zero_add, hweight x block block' hx hx', Nat.mul_add]
          by_cases hx0 : x = 0 <;> simp [hx0]
      rw [hsum]
      rcases hpos with hpos | rfl
      · simp [hpos]
      · simp

/-- A program weighs more by what the entry block of one function does. -/
theorem weigh_rebinds (h : b.Rebinds p q b') (weight : Block → ℕ) (c : ℕ) {main : ℕ} {f : Function}
    (hf : p.functions[main]? = some f) (hdef : f.isDeclaration = false)
    (hweight : ∀ i x block block', p.block? i x = some block → q.block? i x = some block' →
      weight block' = weight block + if i = main ∧ x = 0 then c else 0) :
    a.weigh b' weight = a.weigh b weight +
      if f.name ∈ a.ignore then 0 else (b.executionCount main 0).toNat * c := by
  have hsame : a.functionWeight b' weight = a.functionWeight b weight := by
    funext x
    simp only [functionWeight, h.executions]
  rw [weigh_eq, weigh_eq, h.program, h.program', hsame]
  rcases h.blocks with hblocks | hzero
  swap
  · have hnone : a.functionWeight b weight = fun _ => 0 := by
      funext x
      simp [functionWeight, hzero]
    simp [hnone, hzero]
  have hpos : 0 < f.blocks.length := by
    simpa [Function.isDeclaration, List.length_pos_iff] using hdef
  have hmain : main < p.functions.length := (List.getElem?_eq_some_iff.mp hf).1
  have hlengths : q.functions.length = p.functions.length := by
    simpa using congrArg List.length h.names
  have hsum := sum_map_zipIdx_add (a.functionWeight b weight) (a.functionWeight b weight) 0 main
    (if f.name ∈ a.ignore then 0 else (b.executionCount main 0).toNat * c) hlengths ?_
  · rwa [if_pos ⟨Nat.zero_le _, by omega⟩] at hsum
  · intro i g k hg hk
    have hname : k.name = g.name := by
      have hi := congrArg (·[i]?) h.names
      simpa [hg, hk] using hi
    have hlength : k.blocks.length = g.blocks.length := by
      have hi := congrArg (·[i]?) hblocks
      simpa [Program.blockCounts, hg, hk] using hi
    rw [Nat.zero_add]
    by_cases hi : i = main
    · subst hi
      obtain rfl := Option.some.inj (hf.symm.trans hg)
      rw [if_pos rfl]
      refine functionWeight_add hname hlength (.inl hpos) fun x block block' hx hx' => ?_
      rw [hweight i x block block' (Program.block?_eq_some_iff.mpr ⟨f, hg, hx⟩)
        (Program.block?_eq_some_iff.mpr ⟨k, hk, hx'⟩)]
      simp
    · rw [if_neg hi]
      refine (functionWeight_add (c := 0) hname hlength (.inr rfl)
        fun x block block' hx hx' => ?_).trans (by simp)
      rw [hweight i x block block' (Program.block?_eq_some_iff.mpr ⟨g, hg, hx⟩)
        (Program.block?_eq_some_iff.mpr ⟨k, hk, hx'⟩), if_neg fun h => hi h.1, ite_self]

theorem map_filter_congr {α β γ : Type} {R : α → β → Prop} {xs : List α} {ys : List β}
    {keep : α → Bool} {keep' : β → Bool} {key : α → γ} {key' : β → γ} (h : List.Forall₂ R xs ys)
    (hkeep : ∀ x y, R x y → keep' y = keep x) (hkey : ∀ x y, R x y → key' y = key x) :
    (ys.filter keep').map key' = (xs.filter keep).map key := by
  induction h with
  | nil => rfl
  | @cons x y xs ys hxy _ ih =>
      cases hk : keep x with
      | true =>
          rw [List.filter_cons_of_pos hk, List.filter_cons_of_pos ((hkeep x y hxy).trans hk),
            List.map_cons, List.map_cons, hkey x y hxy, ih]
      | false =>
          have hk' : keep' y = false := (hkeep x y hxy).trans hk
          rw [List.filter_cons_of_neg (by simp [hk']), List.filter_cons_of_neg (by simp [hk]), ih]

/-- Calls and their bytes are the same. -/
theorem tally_mpi_rebinds (h : b.Rebinds p q b') : a.tally b' .mpi = a.tally b .mpi := by
  have hignored : ∀ c d : TrappedCall, c.Same d →
      (!a.isIgnored b' d.site) = !a.isIgnored b c.site := by
    rintro c d ⟨hsite, -⟩
    have hfunction : d.site.function = c.site.function := by rw [hsite]
    have hname := congrArg (·[c.site.function]?) h.names
    simp only [List.getElem?_map] at hname
    have hany : ∀ o : Option Function, (o.any fun f => decide (f.name ∈ a.ignore)) =
        (o.map (·.name)).any fun name => decide (name ∈ a.ignore) := by
      intro o
      cases o <;> rfl
    rw [isIgnored, isIgnored, h.program, h.program', hfunction, hany, hany, hname]
  have hfrequency : ∀ c d : TrappedCall, c.Same d →
      (b'.blockFrequency d).toNat = (b.blockFrequency c).toNat := by
    rintro c d ⟨hsite, hcall⟩
    have hfunction : d.site.function = c.site.function := by rw [hsite]
    have hblock : d.site.block = c.site.block := by rw [hsite]
    have hcalls : d.calls = c.calls := by rw [hcall]
    rw [Binding.blockFrequency, Binding.blockFrequency, h.hasBlockCounts, h.executions, hfunction,
      hblock, hcalls]
  have hbytes : ∀ c d : TrappedCall, c.Same d → d.bytes.toNat = c.bytes.toNat := by
    rintro c d ⟨-, hcall⟩
    rw [hcall]
  unfold tally calls
  rw [map_filter_congr h.trapped hignored hfrequency, map_filter_congr h.trapped hignored hbytes]

/-- Instructions are the same but for the runs of one opcode in one block. -/
theorem tally_block_rebinds (h : b.Rebinds p q b') {main n : ℕ} {f : Function} {opcode : String}
    (hf : p.functions[main]? = some f) (hdef : f.isDeclaration = false)
    (hopcodes : ∀ i x block block', p.block? i x = some block → q.block? i x = some block' →
      block'.opcodes.Perm
        (List.replicate (if i = main ∧ x = 0 then n else 0) opcode ++ block.opcodes)) :
    a.tally b' .block = a.tally b .block +
      if f.name ∈ a.ignore then 0 else .ofRuns opcode ((b.executionCount main 0).toNat * n) := by
  have hlength := weigh_rebinds (a := a) h (fun block => block.opcodes.length) n hf hdef
    fun i x block block' hb hb' => by
      rw [(hopcodes i x block block' hb hb').length_eq, List.length_append, List.length_replicate,
        Nat.add_comm]
  have hcount : ∀ other, _ := fun other => weigh_rebinds (a := a) h
    (fun block => block.opcodes.count other) (if other = opcode then n else 0) hf hdef
    fun i x block block' hb hb' => by
      rw [(hopcodes i x block block' hb hb').count_eq, List.count_append, List.count_replicate,
        Nat.add_comm]
      by_cases hother : other = opcode
      · simp [hother]
      · simp [hother, Ne.symm hother]
  refine Tally.ext ?_ ?_ ?_ (funext fun other => ?_)
  · refine hlength.trans (congrArg _ ?_)
    split_ifs <;> rfl
  · split_ifs <;> rfl
  · split_ifs <;> rfl
  · refine (hcount other).trans (congrArg _ ?_)
    split_ifs with hignored hother
    · rfl
    · simp [Tally.ofRuns, hother]
    · simp [Tally.ofRuns, hother]

/-- What analyzers count beyond the plain program: the calls that register strategies. -/
def registrations (a : Analyzer) (ins : Instrumenter) (p : Program) (b : Binding) : Tally :=
  match p.functionIndex? ins.entry with
  | some main =>
    if .block ∈ a.sources.map Source.kind ∧ ins.entry ∉ a.ignore then
      .ofRuns "call" ((b.executionCount main 0).toNat * ins.strategies.length)
    else 0
  | none => 0

theorem sum_map_add_ite {α : Type} [DecidableEq α] {β : Type} [AddCommMonoid β] {xs : List α}
    (hxs : xs.Nodup) {f g : α → β} {x : α} {extra : β}
    (h : ∀ y, g y = f y + if y = x then extra else 0) :
    (xs.map g).sum = (xs.map f).sum + if x ∈ xs then extra else 0 := by
  rw [← List.sum_toFinset g hxs, ← List.sum_toFinset f hxs]
  simp only [h, Finset.sum_add_distrib, Finset.sum_ite_eq', List.mem_toFinset]

theorem total_rebinds {ins : Instrumenter} (hp : p.IsPlain) (hins : ins.instrument p = .ok q)
    {main : ℕ} (hmain : p.functionIndex? ins.entry = some main) (h : b.Rebinds p q b') :
    a.total b' = a.total b + a.registrations ins p b := by
  obtain ⟨-, ⟨f, hf, hdef⟩, -, -⟩ := Instrumenter.instrument_eq_ok hmain hins
  have hname : f.name = ins.entry := by
    obtain ⟨hlt, hnamed, -⟩ := List.findIdx?_eq_some_iff_getElem.mp hmain
    obtain rfl := Option.some.inj ((List.getElem?_eq_getElem hlt).symm.trans hf)
    simpa using hnamed
  have hblock := tally_block_rebinds (a := a) h hf hdef
    fun i x block block' => Instrumenter.perm_opcodes hp hmain hins
  rw [hname] at hblock
  have hkinds : ∀ kind, a.tally b' kind = a.tally b kind + if kind = .block then
      (if ins.entry ∈ a.ignore then 0 else
        .ofRuns "call" ((b.executionCount main 0).toNat * ins.strategies.length)) else 0 := by
    intro kind
    cases kind with
    | block => rw [hblock, if_pos rfl]
    | mpi => rw [tally_mpi_rebinds h, if_neg (by simp), add_zero]
    | libcall => rw [if_neg (by simp), add_zero]; rfl
  rw [total, total, sum_map_add_ite (List.nodup_dedup _) hkinds, registrations, hmain]
  simp only [List.mem_dedup]
  split_ifs <;> simp_all

end Analyzer

/-- The profile of a run can be bound to the instrumented program, too, unless edges were split and
something was recorded. Then every block has the same executions, and an analyzer counts the same,
but for the registrations in the entry block. -/
theorem price_instrumented {σ : Type} {ins : Instrumenter} {p q : Program} {records : List Record}
    (hp : p.IsPlain) (hins : ins.instrument p = .ok q)
    (hsize : ∀ f ∈ q.functions, ∀ block ∈ f.blocks, block.opcodes.length < 2 ^ 64)
    (host : Host σ) (state : σ) (limit : UInt64) (args : List String)
    (hrun : (q.run host state limit.toNat args).2 = .ok records) :
    ∃ profile b, Profile.ofRecords records = .ok profile ∧ profile.bind p = .ok b ∧
      ((∃ b', profile.bind q = .ok b') ↔ records = [] ∨ ¬ins.SplitsEdges p) ∧
      ∀ b', profile.bind q = .ok b' →
        (∀ i x, b'.executionCount i x = b.executionCount i x) ∧
        ∀ a : Analyzer, (a.total b).Decides (a.run b) ∧
          (a.total b + a.registrations ins p b).Decides (a.run b') := by
  obtain ⟨m, hm⟩ : ∃ m, q.run host state limit.toNat args = (m, .ok records) :=
    ⟨_, Prod.ext rfl hrun⟩
  obtain ⟨profile, hprofile, hfits⟩ := Profile.ofRecords_fits fun record hr =>
    (Instrumenter.record_fits hp.isUninstrumented hins hm hr).1
  obtain ⟨b, hb⟩ := Profile.bind_fits (Instrumenter.instrument_grows hp.isOriginal hins).1 hfits
  refine ⟨profile, b, hprofile, hb,
    Instrumenter.exists_rebind_iff hp hins hm hprofile hfits, fun b' hb' => ?_⟩
  have hsame := Instrumenter.rebinds_of_run hp hins hm hprofile hfits hb hb'
  refine ⟨hsame.executions, fun a => ⟨Analyzer.decides_total fun entry hentry => ?_, ?_⟩⟩
  · obtain ⟨f, hf, hblock⟩ := Analyzer.mem_blocks hentry
    rw [hsame.program] at hf
    obtain ⟨g, hg, block', hblock', hle⟩ := Instrumenter.length_opcodes_le hp hins hf hblock
    exact hle.trans_lt (hsize g hg block' hblock')
  · have hdecides : (a.total b').Decides (a.run b') := Analyzer.decides_total fun entry hentry => by
      obtain ⟨f, hf, hblock⟩ := Analyzer.mem_blocks hentry
      rw [hsame.program'] at hf
      exact hsize f hf entry.1 hblock
    suffices htotal : a.total b' = a.total b + a.registrations ins p b from htotal ▸ hdecides
    cases hmain : p.functionIndex? ins.entry with
    | some main => exact Analyzer.total_rebinds hp hins hmain hsame
    | none =>
        simp only [Instrumenter.instrument, hmain, Outcome.bind_eq_ok_iff,
          Outcome.pure_eq_ok_iff] at hins
        obtain ⟨-, -, rfl⟩ := hins
        obtain rfl := Except.ok.inj (hb.symm.trans hb')
        rw [Analyzer.registrations, hmain, add_zero]

/-- Each record counts two calls of the entry function, there are two such records, and each call
registers two strategies. -/
theorem price_sendTwice :
    ∃ q records profile b b',
      Instrumenter.instrument ⟨[.comm, .edge], "send", []⟩ sendTwice = .ok q ∧
      (q.run MpiProcess.host (.start 0 1 .zero) 100 []).2 = .ok records ∧
      Profile.ofRecords records = .ok profile ∧ profile.bind sendTwice = .ok b ∧
      profile.bind q = .ok b' ∧
      (∀ i x, b'.executionCount i x = b.executionCount i x) ∧
      (verboseBlocks.registrations ⟨[.comm, .edge], "send", []⟩ sendTwice b).instructions = 8 ∧
      (verboseBlocks.total b).Decides (verboseBlocks.run b) ∧
      (verboseBlocks.total b +
        verboseBlocks.registrations ⟨[.comm, .edge], "send", []⟩ sendTwice b).Decides
          (verboseBlocks.run b') := by
  have hins : Instrumenter.instrument ⟨[.comm, .edge], "send", []⟩ sendTwice = .ok _ := rfl
  obtain ⟨profile, b, hprofile, hb, hiff, hsame⟩ := price_instrumented (by decide) hins (by decide)
    MpiProcess.host (.start 0 1 .zero) 100 [] rfl
  obtain ⟨b', hb'⟩ := hiff.mpr (.inr (by decide))
  obtain rfl : _ = profile := Except.ok.inj hprofile
  obtain rfl : _ = b := Except.ok.inj hb
  exact ⟨_, _, _, _, b', hins, rfl, hprofile, hb, hb', (hsame b' hb').1, rfl,
    (hsame b' hb').2 verboseBlocks⟩

/-- One edge of a loop is split, so that the program with counters does not fit its own profile. And
where nothing is split, the call that registers the counters is priced. -/
theorem price_instrumented_not_same :
    ¬(∀ (ins : Instrumenter) (p q : Program) (host : Host MpiProcess) (state : MpiProcess)
        (limit : UInt64) (args : List String) (records : List Record) (profile : Profile),
      p.IsPlain → ins.instrument p = .ok q →
      (q.run host state limit.toNat args).2 = .ok records →
      Profile.ofRecords records = .ok profile → ∃ b', profile.bind q = .ok b') ∧
    ¬(∀ (ins : Instrumenter) (p q : Program) (host : Host MpiProcess) (state : MpiProcess)
        (limit : UInt64) (args : List String) (records : List Record) (profile : Profile)
        (b b' : Binding) (a : Analyzer) (r r' : Report),
      p.IsPlain → ins.instrument p = .ok q →
      (q.run host state limit.toNat args).2 = .ok records →
      Profile.ofRecords records = .ok profile → profile.bind p = .ok b →
      profile.bind q = .ok b' → a.ignore = [] → a.run b = .ok r → a.run b' = .ok r' →
      r'.instructions = r.instructions) := by
  constructor
  · intro h
    obtain ⟨b', hb'⟩ := h ⟨[.edge], "main", []⟩ countToThree countToThreeCounted MpiProcess.host
      (.start 0 1 .zero) 100 [] _ _ (by decide) rfl rfl rfl
    cases hb'
  · intro h
    have hsame := h ⟨[.edge], "main", []⟩ addOnce _ MpiProcess.host (.start 0 1 .zero) 100 []
      _ _ _ _ verboseBlocks _ _ (by decide) rfl rfl rfl rfl rfl rfl rfl rfl
    exact absurd hsame (by decide)

end Price

end FlowProfile
