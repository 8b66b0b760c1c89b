import FlowProfile.Proofs.Exec.AddedWeights
import FlowProfile.Proofs.Instrument.PassFailures

/-!
# Weights of blocks

An instrumented program adds the weights of a block at the end of the block, in the order in which
they are given and behind all that the block has of the program itself. Nothing else adds to the
slot of the block.
-/

namespace FlowProfile

/-! ### The end of a block -/

/-- What is found in a list but not in its first part begins in the second. -/
theorem suffix_of_append {α : Type} {counted : α → Bool} {x : α} {rest first second : List α}
    (h : x :: rest <:+ first ++ second) (hfirst : ∀ y ∈ first, counted y = false)
    (hx : counted x = true) : x :: rest <:+ second := by
  induction first with
  | nil => exact h
  | cons y first ih =>
      rw [List.forall_mem_cons] at hfirst
      rcases List.suffix_cons_iff.mp h with heq | hlater
      · obtain ⟨rfl, -⟩ := List.cons.inj heq
        rw [hfirst.1] at hx
        cases hx
      · exact ih hlater hfirst.2

/-- The values are added to the slot one after another, behind the instructions of the program
itself, and nothing else is added. -/
def EndsAdding (counters : String) (slot : ℕ) (values : List Operand) (insts : List Inst) : Prop :=
  ∃ own tail, insts = own ++ tail ∧ (∀ inst ∈ own, inst.addsTo counters slot = false) ∧
    (∀ inst ∈ tail, inst.isOriginal = false) ∧
    tail.filter (Inst.addsTo counters slot) = values.map (.addWeight counters slot)

namespace EndsAdding

variable {counters : String} {slot : ℕ} {values : List Operand} {insts : List Inst} {inst : Inst}

theorem of_none (h : ∀ inst ∈ insts, inst.addsTo counters slot = false) :
    EndsAdding counters slot [] insts :=
  ⟨insts, [], (List.append_nil insts).symm, h, by simp, rfl⟩

/-- What else is inserted anywhere changes nothing. -/
theorem insertIdx (h : EndsAdding counters slot values insts) (hinst : inst.isOriginal = false)
    (hadds : inst.addsTo counters slot = false) (i : ℕ) :
    EndsAdding counters slot values (insts.insertIdx i inst) := by
  obtain ⟨own, tail, rfl, hown, htail, hvalues⟩ := h
  rcases Nat.le_total i own.length with hi | hi
  · refine ⟨own.insertIdx i inst, tail, insertIdx_append_left own tail inst hi, fun x hx => ?_,
      htail, hvalues⟩
    rcases List.eq_or_mem_of_mem_insertIdx hx with rfl | hx
    · exact hadds
    · exact hown x hx
  · obtain ⟨k, rfl⟩ := Nat.exists_eq_add_of_le hi
    refine ⟨own, tail.insertIdx k inst, insertIdx_append_right own tail k inst, hown,
      fun x hx => ?_, (filter_insertIdx hadds tail k).trans hvalues⟩
    rcases List.eq_or_mem_of_mem_insertIdx hx with rfl | hx
    · exact hinst
    · exact htail x hx

theorem append (h : EndsAdding counters slot values insts) (value : Operand) :
    EndsAdding counters slot (values ++ [value])
      (insts.insertIdx insts.length (.addWeight counters slot value)) := by
  obtain ⟨own, tail, rfl, hown, htail, hvalues⟩ := h
  refine ⟨own, tail ++ [.addWeight counters slot value], ?_, hown, ?_, ?_⟩
  · rw [List.insertIdx_length_self, List.append_assoc]
  · rw [List.forall_mem_append, List.forall_mem_singleton]
    exact ⟨htail, rfl⟩
  · rw [List.filter_append, hvalues, List.map_append]
    simp [Inst.addsTo]

end EndsAdding

/-! ### One block -/

/-- What the update adds to a block, if it is one of that block. -/
def WeightUpdate.valueAt? (u : WeightUpdate) (i : ℕ) (b : BlockId) : Option Operand :=
  if u.function = i ∧ u.block = b then some u.value else none

namespace Program

variable {splitting : Prop} {added : Inst → Prop} {p q : Program} {counters : String} {slot i : ℕ}
  {b : BlockId} {values : List Operand} {u : WeightUpdate}

/-- The block adds the values to the slot at its end, and no other block adds to the slot. -/
structure Weighs (p : Program) (counters : String) (slot i : ℕ) (b : BlockId)
    (values : List Operand) : Prop where
  ends : ∃ block, p.block? i b = some block ∧ EndsAdding counters slot values block.insts
  alone : ∀ (j : ℕ) (f : Function), p.functions[j]? = some f → ∀ x, ¬(j = i ∧ x = b) →
    f.tally (Inst.addsTo counters slot) x = 0

theorem Weighs.edited (h : p.Weighs counters slot i b values) (hedit : p.Edited splitting added q)
    (hadd : ∀ inst, added inst → inst.isOriginal = false ∧ inst.addsTo counters slot = false) :
    q.Weighs counters slot i b values where
  ends := by
    obtain ⟨block, hb, hends⟩ := h.ends
    exact hedit.block_insts (EndsAdding counters slot values)
      (fun _ k inst ha hinsts => hinsts.insertIdx (hadd inst ha).1 (hadd inst ha).2 k) hb hends
  alone j g hg x hx := by
    obtain ⟨f, hf, hfg⟩ := hedit.exists_left hg
    rw [hfg.tally_eq fun inst ha => (hadd inst ha).2, h.alone j f hf x hx]

/-- An update of the block itself is the last of its additions, and any other leaves it alone. -/
theorem Weighs.weigh (h : p.Weighs counters slot i b values)
    (hplace : u.slot = slot ↔ u.function = i ∧ u.block = b) (hq : weigh counters p u = .ok q) :
    q.Weighs counters slot i b (values ++ (u.valueAt? i b).toList) := by
  obtain ⟨block, hb, rfl⟩ := update_insertAtEnd hq
  by_cases hown : u.function = i ∧ u.block = b
  · obtain ⟨block', hb', hends⟩ := h.ends
    obtain rfl := hplace.mpr hown
    obtain ⟨rfl, rfl⟩ := hown
    obtain rfl : block = block' := Option.some.inj (hb.symm.trans hb')
    refine ⟨⟨_, block?_insert_self hb .., ?_⟩, fun j g hg x hx => ?_⟩
    · simpa [WeightUpdate.valueAt?] using hends.append u.value
    · obtain ⟨f, hf, htally⟩ := tally_insert hb le_rfl hg
      rw [htally, h.alone j f hf x hx, if_neg fun hthere => hx hthere.1]
  · have hslot : u.slot ≠ slot := fun heq => hown (hplace.mp heq)
    have hedit : p.Edited False (· = .addWeight counters u.slot u.value) _ :=
      insert_edited hb le_rfl rfl
    rw [WeightUpdate.valueAt?, if_neg hown, Option.toList_none, List.append_nil]
    refine h.edited hedit ?_
    rintro _ rfl
    exact ⟨rfl, by simp [Inst.addsTo, hslot]⟩

theorem Weighs.weigh_fold {us : List WeightUpdate} (h : p.Weighs counters slot i b values)
    (hplaces : ∀ u ∈ us, u.slot = slot ↔ u.function = i ∧ u.block = b)
    (hq : us.foldlM (Program.weigh counters) p = .ok q) :
    q.Weighs counters slot i b (values ++ us.filterMap (·.valueAt? i b)) := by
  induction us generalizing p values with
  | nil =>
      obtain rfl : p = q := by simpa using hq
      simpa using h
  | cons u us ih =>
      rw [List.forall_mem_cons] at hplaces
      rw [List.foldlM_cons, Outcome.bind_eq_ok_iff] at hq
      obtain ⟨mid, hmid, hq⟩ := hq
      have hrest := ih (h.weigh hplaces.1 hmid) hplaces.2 hq
      cases hu : u.valueAt? i b <;> simpa [hu] using hrest

/-! ### The pass that weighs -/

/-- The slot of a block, its number among all blocks. -/
def blockSlot (p : Program) (i : ℕ) (b : BlockId) : ℕ := (p.blockCounts.take i).sum + b

/-- The weights that are given for a block, in order. -/
def weightsOf (p : Program) (weights : List BlockWeight) (i : ℕ) (b : BlockId) : List Operand :=
  weights.filterMap fun w =>
    if p.functionIndex? w.function = some i ∧ w.block = b then some w.value else none

variable {r : Program} {w : BlockWeight} {weights : List BlockWeight} {block : Block}

/-- What others add to the plain program are no weights. -/
theorem IsOriginal.weighs (hp : p.IsOriginal) (hb : p.block? i b = some block)
    (counters : String) (slot : ℕ) : p.Weighs counters slot i b [] where
  ends := ⟨block, hb, .of_none fun _ hmem =>
    Inst.addsTo_of_isOriginal (hp.hasInst ⟨i, b, block, hb, hmem⟩) ..⟩
  alone _ _ hf x _ :=
    tally_eq_zero hf (fun _ hinst => Inst.addsTo_of_isOriginal (hp.hasInst hinst) ..) x

/-- No other block of the plain program has the slot of a block, and an update is one of the block
if and only if its weight is given for it. -/
theorem slot_of_locateWeight (hedit : p.Edited splitting added r) (hb : p.block? i b = some block)
    (h : r.locateWeight p.blockCounts w = .ok u) :
    (u.slot = p.blockSlot i b ↔ u.function = i ∧ u.block = b) ∧
      u.valueAt? i b =
        if p.functionIndex? w.function = some i ∧ w.block = b then some w.value else none := by
  obtain ⟨f, hf, hb⟩ := block?_eq_some_iff.mp hb
  obtain ⟨j, hj, hlt, -, rfl⟩ := locateWeight_eq_ok_iff.mp h
  have hblock : b < (p.blockCounts[i]?).getD 0 := by
    simpa [blockCounts, hf] using (List.getElem?_eq_some_iff.mp hb).1
  rw [hedit.functionIndex?_eq] at hj
  exact ⟨sum_take_add_eq_iff hlt hblock, by simp [WeightUpdate.valueAt?, hj]⟩

theorem weighBlocks_weighs (hedit : p.Edited splitting added r) (hb : p.block? i b = some block)
    (hr : r.Weighs counters (p.blockSlot i b) i b [])
    (h : r.weighBlocks p.blockCounts weights counters = .ok q) :
    q.Weighs counters (p.blockSlot i b) i b (p.weightsOf weights i b) := by
  simp only [weighBlocks, Outcome.bind_eq_ok_iff, declare_eq_ok_iff] at h
  obtain ⟨updates, hupdates, len, -, mid, ⟨-, rfl⟩, h⟩ := h
  have hdeclared : Weighs { r with globals := r.globals ++ [⟨counters, .f64, len, 0⟩] } counters
      (p.blockSlot i b) i b [] := ⟨hr.ends, hr.alone⟩
  have hvalues : updates.filterMap (·.valueAt? i b) = p.weightsOf weights i b :=
    Outcome.filterMap_of_mapM hupdates fun w _ u hu => (slot_of_locateWeight hedit hb hu).2
  rw [← hvalues]
  refine hdeclared.weigh_fold (fun u hu => ?_) h
  obtain ⟨w, -, hlocated⟩ := Outcome.exists_of_mem_mapM hupdates hu
  exact (slot_of_locateWeight hedit hb hlocated).1

/-- A run adds the weights at the end of the block and nowhere else. -/
theorem Weighs.exists_addsAtEnd (h : q.Weighs counters slot i b values) :
    ∃ tail, q.AddsAtEnd counters slot i b tail ∧ addends counters slot tail = values := by
  obtain ⟨block, hb, own, tail, hinsts, hown, htail, hvalues⟩ := h.ends
  have hsuffix : tail <:+ block.insts := hinsts ▸ List.suffix_append own tail
  refine ⟨tail, ⟨⟨block, hb, hsuffix⟩, htail, ?_⟩, ?_⟩
  · rintro ⟨j, x, _⟩ inst rest ⟨other, hother, hrest⟩ rfl hadds
    obtain ⟨f, hf, hx⟩ := block?_eq_some_iff.mp hother
    have hplace : j = i ∧ x = b := by
      by_contra hne
      have hzero := h.alone j f hf x hne
      rw [Function.tally, hx] at hzero
      have hnone := List.countP_eq_zero.mp hzero inst (hrest.subset List.mem_cons_self)
      exact hnone hadds
    obtain ⟨rfl, rfl⟩ := hplace
    obtain rfl : other = block := Option.some.inj (hother.symm.trans hb)
    have hin : inst :: rest <:+ tail := suffix_of_append (hinsts ▸ hrest) hown hadds
    have hmem : inst ∈ values.map (.addWeight counters slot) :=
      hvalues ▸ List.mem_filter.mpr ⟨hin.subset List.mem_cons_self, hadds⟩
    obtain ⟨value, -, rfl⟩ := List.mem_map.mp hmem
    exact ⟨rfl, rfl, hin, value, rfl⟩
  · have hfilter : tail.filterMap (Inst.addend? counters slot) =
        (tail.filter (Inst.addsTo counters slot)).filterMap (Inst.addend? counters slot) := by
      rw [List.filterMap_filter]
      refine List.filterMap_congr fun inst _ => ?_
      cases hadds : inst.addsTo counters slot with
      | true => rfl
      | false => exact Inst.addend?_of_addsTo_eq_false hadds
    rw [addends, hfilter, hvalues, List.filterMap_map]
    have hsome : Inst.addend? counters slot ∘ Inst.addWeight counters slot = some := by
      funext value
      simp [Inst.addend?]
    rw [hsome, List.filterMap_some]

end Program

/-! ### All strategies -/

/-- The array of the weights. -/
def weightCounters : String := "__commprof_block_weights"

theorem Strategy.passes_weightedBlock : Strategy.weightedBlock.passes = [.weights weightCounters] :=
  rfl

/-- Other strategies add to other arrays. -/
theorem Inst.Added.addsTo_eq_false {valued : Operand → Prop} {used : Strategy → Prop} {p : Program}
    {inst : Inst} (h : Inst.Added valued used p inst) (hused : ¬used .weightedBlock) (slot : ℕ) :
    inst.addsTo weightCounters slot = false := by
  cases h with
  | @pass s pass len inst hs hp hg ha =>
      refine ha.addsTo_eq_false (fun hname => hused ?_) slot
      obtain ⟨rfl, -⟩ := Strategy.pass_unique hp (t := .weightedBlock) List.mem_cons_self hname
      exact hs
  | registration => rfl

namespace Instrumenter

variable {ins : Instrumenter} {p q : Program} {main i : ℕ} {b : BlockId} {block : Block}

/-- Whatever other strategies are used before and after it, every block of the plain program adds
its weights at its end. -/
theorem applyAll_weighs (hp : p.IsOriginal) (hs : .weightedBlock ∈ ins.strategies)
    (hb : p.block? i b = some block) (h : ins.applyAll p.blockCounts main p = .ok q) :
    q.Weighs weightCounters (p.blockSlot i b) i b (p.weightsOf ins.weights i b) := by
  obtain ⟨first, second, hfirst, hsecond, hrest⟩ :=
    applyAll_split (List.length_map ..) p.copies_true (fun _ _ => trivial) hs h
  have hadd : ∀ {r inst}, Inst.Added (fun _ => True)
      (fun t => t ∈ ins.strategies ∧ t ≠ .weightedBlock) r inst →
      inst.isOriginal = false ∧ inst.addsTo weightCounters (p.blockSlot i b) = false :=
    fun ha => ⟨ha.isOriginal_eq_false, ha.addsTo_eq_false (fun hused => hused.2 rfl) _⟩
  simp only [apply, Strategy.passes_weightedBlock, List.foldlM_cons, List.foldlM_nil,
    Outcome.bind_eq_ok_iff, Outcome.pure_eq_ok_iff] at hsecond
  obtain ⟨_, ⟨weighed, hweighed, rfl⟩, hregister⟩ := hsecond
  have hplain := (hp.weighs hb weightCounters (p.blockSlot i b)).edited hfirst.edited
    fun inst ha => hadd ha
  have hweighs := Program.weighBlocks_weighs hfirst.edited hb hplain hweighed
  obtain ⟨-, hregisterEdit⟩ := Program.update_insertAtStart_edited hregister
  have hregistered := hweighs.edited hregisterEdit
    fun inst ha => ha ▸ ⟨Strategy.isOriginal_registration .weightedBlock, rfl⟩
  exact hregistered.edited hrest.edited fun inst ha => hadd ha

end Instrumenter

end FlowProfile
