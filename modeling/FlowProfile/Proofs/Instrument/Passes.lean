import FlowProfile.Instrument.Basic
import FlowProfile.Proofs.Exec.Instruction
import FlowProfile.Proofs.Instrument.EdgeCounters

/-!
# What a pass does to a program

Every pass declares its own array, and edits the functions: it inserts instructions of one
kind, and the one that counts edges also splits some.
-/

namespace FlowProfile

/-! ### Edited programs -/

/-- Every function is an edited one. -/
def Program.Edited (splitting : Prop) (added : Inst → Prop) (p q : Program) : Prop :=
  List.Forall₂ (Function.Edited splitting added) p.functions q.functions

namespace Program

variable {splitting splitting' : Prop} {added added' : Inst → Prop} {p q r : Program}

theorem update_eq_ok_iff {i : ℕ} {change : Function → Outcome Function} :
    p.update i change = .ok q ↔
      ∃ f g, p.functions[i]? = some f ∧ change f = .ok g ∧
        q = { p with functions := p.functions.set i g } := by
  simp only [update, function, Outcome.bind_eq_ok_iff, Outcome.get_eq_ok_iff,
    Outcome.pure_eq_ok_iff]
  constructor
  · rintro ⟨f, hf, g, hg, rfl⟩
    exact ⟨f, g, hf, hg, rfl⟩
  · rintro ⟨f, g, hf, hg, rfl⟩
    exact ⟨f, hf, g, hg, rfl⟩

theorem declare_eq_ok_iff {g : Global} :
    p.declare g = .ok q ↔ p.global? g.name = none ∧ q = { p with globals := p.globals ++ [g] } := by
  unfold declare
  cases p.global? g.name with
  | none => simp [eq_comm]
  | some other => simp [Outcome.fail]

theorem Edited.refl (p : Program) : p.Edited splitting added p :=
  List.forall₂_same.mpr fun _ _ => .refl

theorem Edited.of_functions_eq (h : q.functions = p.functions) : p.Edited splitting added q := by
  unfold Edited
  rw [h]
  exact Edited.refl p

theorem Edited.mono (hsplit : splitting → splitting') (hadd : ∀ inst, added inst → added' inst)
    (h : p.Edited splitting added q) : p.Edited splitting' added' q :=
  List.Forall₂.imp (fun _ _ hfg => hfg.mono hsplit hadd) h

theorem Edited.length_eq (h : p.Edited splitting added q) :
    q.functions.length = p.functions.length := (List.Forall₂.length_eq h).symm

theorem Edited.get? (h : p.Edited splitting added q) {i : ℕ} {f g : Function}
    (hf : p.functions[i]? = some f) (hg : q.functions[i]? = some g) :
    f.Edited splitting added g := by
  obtain ⟨hi, rfl⟩ := List.getElem?_eq_some_iff.mp hf
  obtain ⟨hi', rfl⟩ := List.getElem?_eq_some_iff.mp hg
  exact List.Forall₂.get h hi hi'

theorem Edited.exists_left (h : p.Edited splitting added q) {i : ℕ} {g : Function}
    (hg : q.functions[i]? = some g) :
    ∃ f, p.functions[i]? = some f ∧ f.Edited splitting added g := by
  have hi : i < p.functions.length := by
    rw [← h.length_eq]
    exact (List.getElem?_eq_some_iff.mp hg).1
  exact ⟨_, List.getElem?_eq_getElem hi, h.get? (List.getElem?_eq_getElem hi) hg⟩

theorem Edited.exists_right (h : p.Edited splitting added q) {i : ℕ} {f : Function}
    (hf : p.functions[i]? = some f) :
    ∃ g, q.functions[i]? = some g ∧ f.Edited splitting added g := by
  have hi : i < q.functions.length := by
    rw [h.length_eq]
    exact (List.getElem?_eq_some_iff.mp hf).1
  exact ⟨_, List.getElem?_eq_getElem hi, h.get? hf (List.getElem?_eq_getElem hi)⟩

theorem edited_iff :
    p.Edited splitting added q ↔ q.functions.length = p.functions.length ∧
      ∀ (i : ℕ) (f g : Function), p.functions[i]? = some f → q.functions[i]? = some g →
        f.Edited splitting added g := by
  constructor
  · intro h
    exact ⟨h.length_eq, fun i f g hf hg => h.get? hf hg⟩
  · rintro ⟨hlen, hall⟩
    refine List.forall₂_iff_get.mpr ⟨hlen.symm, ?_⟩
    intro i hi hi'
    exact hall i _ _ (List.getElem?_eq_getElem hi) (List.getElem?_eq_getElem hi')

theorem Edited.trans (hpq : p.Edited splitting added q) (hqr : q.Edited splitting added r) :
    p.Edited splitting added r := by
  refine edited_iff.mpr ⟨hqr.length_eq.trans hpq.length_eq, ?_⟩
  intro i f h hf hh
  obtain ⟨g, hg, hfg⟩ := hpq.exists_right hf
  exact hfg.trans (hqr.get? hg hh)

theorem Edited.isValid (h : p.Edited splitting added q) (hp : p.IsValid) : q.IsValid := by
  intro g hg
  obtain ⟨i, hi⟩ := List.mem_iff_getElem?.mp hg
  obtain ⟨f, hf, hfg⟩ := h.exists_left hi
  exact hfg.isValid (hp f (List.mem_of_getElem? hf))

/-- What every insertion keeps of the instructions of a block is kept. -/
theorem Edited.block_insts (h : p.Edited splitting added q) (kept : List Inst → Prop)
    (hkept : ∀ insts i inst, added inst → kept insts → kept (insts.insertIdx i inst))
    {function : ℕ} {b : BlockId} {block : Block} (hb : p.block? function b = some block)
    (hblock : kept block.insts) :
    ∃ block', q.block? function b = some block' ∧ kept block'.insts := by
  obtain ⟨f, hf, hb⟩ := block?_eq_some_iff.mp hb
  obtain ⟨g, hg, hfg⟩ := h.exists_right hf
  obtain ⟨block', hb', hkept'⟩ := hfg.block_insts kept hkept hb hblock
  exact ⟨block', block?_eq_some_iff.mpr ⟨g, hg, hb'⟩, hkept'⟩

/-- One edited function makes an edited program, with the same arrays. -/
theorem update_edited {i : ℕ} {change : Function → Outcome Function}
    (h : p.update i change = .ok q)
    (hedit : ∀ f g, change f = .ok g → f.Edited splitting added g) :
    q.globals = p.globals ∧ p.Edited splitting added q := by
  obtain ⟨f, g, hf, hg, rfl⟩ := update_eq_ok_iff.mp h
  refine ⟨rfl, edited_iff.mpr ⟨by simp, ?_⟩⟩
  intro j f' g' hf' hg'
  rw [List.getElem?_set] at hg'
  by_cases hij : i = j
  · subst hij
    obtain rfl : f = f' := Option.some.inj (hf.symm.trans hf')
    have hi := (List.getElem?_eq_some_iff.mp hf).1
    obtain rfl : g = g' := by simpa [hi] using hg'
    exact hedit f g hg
  · rw [if_neg hij] at hg'
    obtain rfl : f' = g' := Option.some.inj (hf'.symm.trans hg')
    exact .refl

theorem update_insertAtStart_edited {i : ℕ} {b : BlockId} {inst : Inst}
    (h : p.update i (·.insertAtStart b inst) = .ok q) :
    q.globals = p.globals ∧ p.Edited False (· = inst) q :=
  update_edited h fun _ _ hfg => .insertAt rfl hfg

/-- Edits made one after another are edits. -/
theorem foldlM_edited {α : Type} {step : Program → α → Outcome Program} {xs : List α}
    (hstep : ∀ x ∈ xs, ∀ p q, step p x = .ok q →
      q.globals = p.globals ∧ p.Edited splitting added q)
    (h : xs.foldlM step p = .ok q) : q.globals = p.globals ∧ p.Edited splitting added q := by
  induction xs generalizing p with
  | nil =>
      obtain rfl : p = q := by simpa using h
      exact ⟨rfl, .refl p⟩
  | cons x xs ih =>
      rw [List.foldlM_cons, Outcome.bind_eq_ok_iff] at h
      obtain ⟨mid, hmid, h⟩ := h
      obtain ⟨hglobals, hedited⟩ := hstep x List.mem_cons_self p mid hmid
      obtain ⟨hglobals', hedited'⟩ := ih (fun y hy => hstep y (List.mem_cons_of_mem x hy)) h
      exact ⟨hglobals'.trans hglobals, hedited.trans hedited'⟩

theorem Edited.hasInst (h : p.Edited splitting added q) {inst : Inst} (hi : q.HasInst inst) :
    added inst ∨ p.HasInst inst := by
  obtain ⟨function, b, block, hb, hmem⟩ := hi
  obtain ⟨g, hg, hb⟩ := block?_eq_some_iff.mp hb
  obtain ⟨f, hf, hedit⟩ := h.exists_left hg
  rcases hedit.mem_insts hb hmem with ha | ⟨block', hb', hmem'⟩
  · exact .inl ha
  · exact .inr ⟨function, b, block', block?_eq_some_iff.mpr ⟨f, hf, hb'⟩, hmem'⟩

theorem tally_eq_zero {i : ℕ} {f : Function} (hf : p.functions[i]? = some f)
    {counted : Inst → Bool} (hnone : ∀ inst, p.HasInst inst → counted inst = false) (x : BlockId) :
    f.tally counted x = 0 := by
  unfold Function.tally
  cases hb : f.blocks[x]? with
  | none => rfl
  | some block =>
      simp only [Option.map_some, Option.getD_some, List.countP_eq_zero]
      intro inst hi
      simp [hnone inst ⟨i, x, block, block?_eq_some_iff.mpr ⟨f, hf, hb⟩, hi⟩]

/-! ### One insertion -/

/-- Inserts an instruction into a block of a function. -/
def insert (p : Program) (i : ℕ) (b : BlockId) (index : ℕ) (inst : Inst) : Program :=
  { p with functions := p.functions.modify i (·.insert b index inst) }

theorem update_insertAt {i : ℕ} {b : BlockId} {index : ℕ} {inst : Inst}
    (h : (p.update i fun f => f.insertAt b index inst) = .ok q) :
    q = p.insert i b index inst ∧
      ∃ block, p.block? i b = some block ∧ index ≤ block.insts.length := by
  obtain ⟨f, g, hf, hfg, rfl⟩ := update_eq_ok_iff.mp h
  obtain ⟨block, hb, hi, rfl⟩ := Function.insertAt_eq_ok_iff.mp hfg
  refine ⟨?_, block, block?_eq_some_iff.mpr ⟨f, hf, hb⟩, hi⟩
  simp [insert, List.modify_eq_set_getElem?, hf]

theorem update_insertAtEnd {i : ℕ} {b : BlockId} {inst : Inst}
    (h : (p.update i fun f => f.insertAtEnd b inst) = .ok q) :
    ∃ block, p.block? i b = some block ∧ q = p.insert i b block.insts.length inst := by
  obtain ⟨f, g, hf, hfg, rfl⟩ := update_eq_ok_iff.mp h
  obtain ⟨block, hb, rfl⟩ := Function.insertAtEnd_eq_ok_iff.mp hfg
  refine ⟨block, block?_eq_some_iff.mpr ⟨f, hf, hb⟩, ?_⟩
  simp [insert, List.modify_eq_set_getElem?, hf]

theorem block?_insert_self {i : ℕ} {b : BlockId} {block : Block} (hb : p.block? i b = some block)
    (index : ℕ) (inst : Inst) : (p.insert i b index inst).block? i b =
      some { block with insts := block.insts.insertIdx index inst } := by
  obtain ⟨f, hf, hb⟩ := block?_eq_some_iff.mp hb
  refine block?_eq_some_iff.mpr ⟨f.insert b index inst, ?_, ?_⟩
  · simp [insert, hf]
  · simp [Function.getElem?_insert, hb]

theorem block?_insert_ne {i function : ℕ} {b x : BlockId} (h : ¬(i = function ∧ b = x))
    (index : ℕ) (inst : Inst) :
    (p.insert i b index inst).block? function x = p.block? function x := by
  unfold block? insert
  rw [List.getElem?_modify]
  cases p.functions[function]? with
  | none => rfl
  | some f =>
      by_cases hi : i = function
      · have hx : b ≠ x := fun hx => h ⟨hi, hx⟩
        simp [hi, Function.getElem?_insert, hx]
      · simp [hi]

theorem insert_edited {i : ℕ} {b : BlockId} {index : ℕ} {inst : Inst} {block : Block}
    (hb : p.block? i b = some block) (hi : index ≤ block.insts.length) (ha : added inst) :
    p.Edited splitting added (p.insert i b index inst) := by
  obtain ⟨f, hf, hb⟩ := block?_eq_some_iff.mp hb
  refine edited_iff.mpr ⟨List.length_modify .., fun j f' g hf' hg => ?_⟩
  rw [insert, List.getElem?_modify, hf', Option.map_eq_map, Option.map_some] at hg
  obtain rfl := Option.some.inj hg
  split
  · rename_i hij
    obtain rfl : f = f' := Option.some.inj (hf.symm.trans (hij ▸ hf'))
    exact Function.Edited.refl.insert hb hi ha
  · exact .refl

theorem tally_insert {i : ℕ} {b : BlockId} {index : ℕ} {inst : Inst} {block : Block}
    (hb : p.block? i b = some block) (hi : index ≤ block.insts.length) {j : ℕ} {g : Function}
    (hg : (p.insert i b index inst).functions[j]? = some g) :
    ∃ f, p.functions[j]? = some f ∧ ∀ counted x,
      g.tally counted x = f.tally counted x + if (j = i ∧ x = b) ∧ counted inst then 1 else 0 := by
  obtain ⟨f', hf', hb⟩ := block?_eq_some_iff.mp hb
  rw [insert, List.getElem?_modify, Option.map_eq_map] at hg
  obtain ⟨f, hf, rfl⟩ := Option.map_eq_some_iff.mp hg
  refine ⟨f, hf, fun counted x => ?_⟩
  by_cases hij : i = j
  · subst hij
    obtain rfl : f = f' := Option.some.inj (hf.symm.trans hf')
    simp [Function.tally_insert hb hi]
  · simp [hij, Ne.symm hij]

end Program

/-! ### What each pass declares and inserts -/

def Pass.type : Pass → CounterType
  | edges _ | comm _ => .u64
  | rank _ => .i32
  | time _ | weights _ => .f64

def Pass.initial : Pass → Int64
  | rank _ => unknownRank.toInt64
  | _ => 0

/-- The array of a pass with so many slots. -/
def Pass.global (pass : Pass) (len : ℕ) : Global := ⟨pass.counters, pass.type, len, pass.initial⟩

/-- The slots that a pass needs. -/
def Pass.size (blocks : List ℕ) (p : Program) : Pass → ℕ
  | edges _ => ((p.functions.zip blocks).map fun x => x.1.countedSlots x.2).sum
  | rank _ => 1
  | comm _ => 2 * p.payloadSites.length
  | time _ => p.timedSites.length
  | weights _ => blocks.sum

def Pass.Splits : Pass → Prop
  | edges _ => True
  | _ => False

/-- The instructions that a pass inserts, for an array of so many slots and the operands
that it may copy. -/
inductive Pass.Adds (values : Operand → Prop) (len : ℕ) : Pass → Inst → Prop where
  | increment {counters : String} {slot : ℕ} (hs : slot < len) :
      Adds values len (.edges counters) (.increment counters slot)
  | store {counters : String} {value : Operand} (hs : 0 < len) (hv : values value) :
      Adds values len (.rank counters) (.store counters 0 value)
  | accumulate {counters : String} {slot : ℕ} {count datatype : Operand}
      (hs : 2 * slot + 1 < len) (hc : values count) (hd : values datatype) :
      Adds values len (.comm counters) (.accumulate counters (2 * slot) count datatype)
  | timerStart {counters : String} : Adds values len (.time counters) .timerStart
  | timerStop {counters : String} {slot : ℕ} (hs : slot < len) :
      Adds values len (.time counters) (.timerStop counters slot)
  | addWeight {counters : String} {slot : ℕ} {value : Operand} (hs : slot < len)
      (hv : values value) : Adds values len (.weights counters) (.addWeight counters slot value)

/-- No two passes have one array, not of different strategies either. -/
theorem Strategy.pass_unique {s t : Strategy} {pass pass' : Pass} (h : pass ∈ s.passes)
    (h' : pass' ∈ t.passes) (hname : pass.counters = pass'.counters) : s = t ∧ pass = pass' := by
  have hall : ∀ s ∈ all, ∀ pass ∈ s.passes, ∀ t ∈ all, ∀ pass' ∈ t.passes,
      pass.counters = pass'.counters → s = t ∧ pass = pass' := by decide
  have hmem : ∀ s, s ∈ all := fun s => by cases s <;> decide
  exact hall s (hmem s) pass h t (hmem t) pass' h' hname

theorem narrow_eq_ok_iff {n m : ℕ} {cause : Cause} :
    narrow n cause = .ok m ↔ n < 2 ^ 32 ∧ m = n := by
  unfold narrow
  split <;> simp_all [@eq_comm _ m]

/-! ### Call sites -/

theorem Strategy.ofEntryPoint?_eq_some_iff {name : String} {s : Strategy} :
    ofEntryPoint? name = some s ↔ name = s.entryPoint := by
  constructor
  · intro h
    have hname := List.find?_some h
    exact (beq_iff_eq.mp hname).symm
  · rintro rfl
    exact ofEntryPoint?_entryPoint s

theorem Strategy.lookup?_entryPoint (s : Strategy) :
    Comm.Operation.lookup? s.entryPoint = none := by
  cases s <;> decide

theorem Strategy.isRankQuery_entryPoint (s : Strategy) :
    Comm.isRankQuery s.entryPoint = false := by
  cases s <;> decide

theorem Strategy.ofEntryPoint?_eq_none_of_lookup? {name : String} {op : Comm.Operation}
    (h : Comm.Operation.lookup? name = some op) : ofEntryPoint? name = none := by
  cases hs : ofEntryPoint? name with
  | none => rfl
  | some s =>
      rw [ofEntryPoint?_eq_some_iff.mp hs, lookup?_entryPoint] at h
      cases h

theorem Strategy.ofEntryPoint?_eq_none_of_isRankQuery {name : String}
    (h : Comm.isRankQuery name = true) : ofEntryPoint? name = none := by
  cases hs : ofEntryPoint? name with
  | none => rfl
  | some s =>
      rw [ofEntryPoint?_eq_some_iff.mp hs, isRankQuery_entryPoint] at h
      cases h

namespace Program

variable {p : Program}

/-- A call site is the place of a call. -/
theorem mem_callSites {c : CallSite} :
    c ∈ p.callSites ↔ ∃ block, p.block? c.function c.block = some block ∧
      block.insts[c.inst]? = some (.call c.callee c.args) := by
  obtain ⟨function, b, index, callee, args⟩ := c
  simp only [callSites, Function.callSites, Block.callSites, List.mem_flatMap, List.mem_filterMap,
    Prod.exists, List.mk_mem_zipIdx_iff_getElem?, block?_eq_some_iff]
  constructor
  · rintro ⟨f, i, hf, block, j, hb, inst, k, hi, hsite⟩
    cases inst <;>
      simp only [Inst.siteAt?, Option.some.injEq, CallSite.mk.injEq, reduceCtorEq] at hsite
    obtain ⟨rfl, rfl, rfl, rfl, rfl⟩ := hsite
    exact ⟨block, ⟨f, hf, hb⟩, hi⟩
  · rintro ⟨block, ⟨f, hf, hb⟩, hi⟩
    exact ⟨f, function, hf, block, b, hb, _, index, hi, rfl⟩

theorem hasInst_of_mem_callSites {c : CallSite} (h : c ∈ p.callSites) :
    p.HasInst (.call c.callee c.args) := by
  obtain ⟨block, hb, hi⟩ := mem_callSites.mp h
  exact ⟨c.function, c.block, block, hb, List.mem_of_getElem? hi⟩

end Program

theorem Comm.PayloadSite.ofCall?_eq_some {c : CallSite} {site : Comm.PayloadSite}
    (h : Comm.PayloadSite.ofCall? c = some site) :
    c.callee = .direct site.callee ∧ Operation.lookup? site.callee = some site.op ∧
      ∃ count datatype, site.op.payload = some (count, datatype) ∧
        c.args[count]? = some site.count ∧ c.args[datatype]? = some site.datatype := by
  simp only [ofCall?, Option.bind_eq_bind, Option.bind_eq_some_iff] at h
  obtain ⟨s, hs, ⟨count, datatype⟩, hpayload, h⟩ := h
  split at h
  · simp only [Option.bind_eq_some_iff] at h
    obtain ⟨n, hn, d, hd, h⟩ := h
    obtain rfl := Option.some.inj h
    unfold Site.ofCall? at hs
    split at hs
    · rename_i name hname
      obtain ⟨op, hop, rfl⟩ := Option.map_eq_some_iff.mp hs
      exact ⟨hname, hop, count, datatype, hpayload, hn, hd⟩
    · cases hs
  · cases h

/-! ### Passes -/

/-- The operands of the program's own calls may be copied. -/
def Program.Copies (values : Operand → Prop) (p : Program) : Prop :=
  ∀ name args, p.HasInst (.call (.direct name) args) → Strategy.ofEntryPoint? name = none →
    ∀ a ∈ args, values a

theorem Program.copies_true (p : Program) : p.Copies fun _ => True :=
  fun _ _ _ _ _ _ => trivial

namespace Program

variable {p q : Program} {values : Operand → Prop} {counters : String}

theorem trapPayload_edited {len : ℕ}
    (hp : ∀ site ∈ p.payloadSites, values site.count ∧ values site.datatype)
    (hlen : 2 * p.payloadSites.length ≤ len) {r : Program}
    (h : p.payloadSites.zipIdx.reverse.foldlM (trapPayload counters) q = .ok r) :
    r.globals = q.globals ∧ q.Edited False (Pass.Adds values len (.comm counters)) r := by
  refine foldlM_edited ?_ h
  rintro ⟨site, index⟩ hmem p' q' htrap
  have hsite := List.mk_mem_zipIdx_iff_getElem?.mp (List.mem_reverse.mp hmem)
  have hindex : index < p.payloadSites.length := (List.getElem?_eq_some_iff.mp hsite).1
  obtain ⟨hcount, hdatatype⟩ := hp site (List.mem_of_getElem? hsite)
  simp only [trapPayload, Outcome.bind_eq_ok_iff, narrow_eq_ok_iff] at htrap
  obtain ⟨slot, ⟨-, rfl⟩, hupdate⟩ := htrap
  exact update_edited hupdate fun f g hfg =>
    .insertAt (.accumulate (by omega) hcount hdatatype) hfg

theorem payloadSites_values (hp : p.Copies values) :
    ∀ site ∈ p.payloadSites, values site.count ∧ values site.datatype := by
  intro site hsite
  obtain ⟨c, hc, hsite⟩ := List.mem_filterMap.mp hsite
  obtain ⟨hname, hop, count, datatype, -, hcount, hdatatype⟩ :=
    Comm.PayloadSite.ofCall?_eq_some hsite
  have hinst := hasInst_of_mem_callSites hc
  rw [hname] at hinst
  have hargs := hp _ c.args hinst (Strategy.ofEntryPoint?_eq_none_of_lookup? hop)
  exact ⟨hargs _ (List.mem_of_getElem? hcount), hargs _ (List.mem_of_getElem? hdatatype)⟩

variable (values) in
theorem trapTimed_edited {len : ℕ} {r : Program} {sites : List Comm.Site}
    (hlen : sites.length ≤ len)
    (h : sites.zipIdx.reverse.foldlM (trapTimed counters) q = .ok r) :
    r.globals = q.globals ∧ q.Edited False (Pass.Adds values len (.time counters)) r := by
  refine foldlM_edited ?_ h
  rintro ⟨site, index⟩ hmem p' q' htrap
  have hsite := List.mk_mem_zipIdx_iff_getElem?.mp (List.mem_reverse.mp hmem)
  have hindex : index < sites.length := (List.getElem?_eq_some_iff.mp hsite).1
  simp only [trapTimed, Outcome.bind_eq_ok_iff, narrow_eq_ok_iff] at htrap
  obtain ⟨slot, ⟨-, rfl⟩, hupdate⟩ := htrap
  refine update_edited hupdate fun f g hfg => ?_
  obtain ⟨mid, hmid, hfg⟩ := Outcome.bind_eq_ok_iff.mp hfg
  exact (Function.Edited.insertAt (.timerStop (by omega)) hmid).trans
    (Function.Edited.insertAt .timerStart hfg)

theorem trapRank_spec (hp : p.Copies values) (h : p.trapRank counters = .ok q) :
    p.global? counters = none ∧ q.globals = p.globals ++ [(Pass.rank counters).global 1] ∧
      p.Edited False (Pass.Adds values 1 (.rank counters)) q := by
  simp only [trapRank, Outcome.bind_eq_ok_iff, declare_eq_ok_iff] at h
  obtain ⟨mid, ⟨hnone, rfl⟩, h⟩ := h
  have hkeep : p.Edited False (Pass.Adds values 1 (.rank counters))
      { p with globals := p.globals ++ [(Pass.rank counters).global 1] } := .of_functions_eq rfl
  cases hsite : p.rankQuery? with
  | none =>
      simp only [hsite, Outcome.pure_eq_ok_iff] at h
      subst h
      exact ⟨hnone, rfl, hkeep⟩
  | some site =>
      cases hrank : site.args[1]? with
      | none =>
          simp only [hsite, hrank, Outcome.pure_eq_ok_iff] at h
          subst h
          exact ⟨hnone, rfl, hkeep⟩
      | some rank =>
          have hvalue : values rank := by
            have hinst := hasInst_of_mem_callSites (List.mem_of_find?_eq_some hsite)
            have hasks := List.find?_some hsite
            unfold CallSite.asksRank at hasks
            split at hasks
            · rename_i name hname
              rw [hname] at hinst
              exact hp name site.args hinst
                (Strategy.ofEntryPoint?_eq_none_of_isRankQuery hasks) rank
                (List.mem_of_getElem? hrank)
            · cases hasks
          simp only [hsite, hrank] at h
          have hinsert : ∀ f g : Function,
              f.insertAfter site.block site.inst (.store counters 0 rank) = .ok g →
              f.Edited False (Pass.Adds values 1 (.rank counters)) g :=
            fun f g hfg => .insertAt (.store (by omega) hvalue) hfg
          obtain ⟨hglobals, hedited⟩ := update_edited h hinsert
          exact ⟨hnone, hglobals, hkeep.trans hedited⟩

theorem trapComm_spec (hp : p.Copies values) (h : p.trapComm counters = .ok q) :
    p.global? counters = none ∧
      q.globals = p.globals ++ [(Pass.comm counters).global (2 * p.payloadSites.length)] ∧
      p.Edited False (Pass.Adds values (2 * p.payloadSites.length) (.comm counters)) q := by
  simp only [trapComm, Outcome.bind_eq_ok_iff, narrow_eq_ok_iff, declare_eq_ok_iff] at h
  obtain ⟨len, ⟨-, rfl⟩, mid, ⟨hnone, rfl⟩, h⟩ := h
  obtain ⟨hglobals, hedited⟩ := trapPayload_edited (payloadSites_values hp) le_rfl h
  exact ⟨hnone, hglobals, (Edited.of_functions_eq rfl).trans hedited⟩

variable (values) in
theorem trapTime_spec (h : p.trapTime counters = .ok q) :
    p.global? counters = none ∧
      q.globals = p.globals ++ [(Pass.time counters).global p.timedSites.length] ∧
      p.Edited False (Pass.Adds values p.timedSites.length (.time counters)) q := by
  simp only [trapTime, Outcome.bind_eq_ok_iff, narrow_eq_ok_iff, declare_eq_ok_iff] at h
  obtain ⟨len, ⟨-, rfl⟩, mid, ⟨hnone, rfl⟩, h⟩ := h
  obtain ⟨hglobals, hedited⟩ := trapTimed_edited values le_rfl h
  exact ⟨hnone, hglobals, (Edited.of_functions_eq rfl).trans hedited⟩

/-- The block of a weight is one that its function had at first, and its slot is its number among
the blocks of all functions. -/
theorem locateWeight_eq_ok_iff {blocks : List ℕ} {w : BlockWeight} {u : WeightUpdate} :
    p.locateWeight blocks w = .ok u ↔ ∃ i, p.functionIndex? w.function = some i ∧
      w.block < (blocks[i]?).getD 0 ∧ (blocks.take i).sum + w.block < 2 ^ 32 ∧
      u = ⟨i, w.block, (blocks.take i).sum + w.block, w.value⟩ := by
  simp only [locateWeight, Outcome.bind_eq_ok_iff, Outcome.ofOption_eq_ok_iff,
    Outcome.require_eq_ok_iff, narrow_eq_ok_iff, Outcome.pure_eq_ok_iff]
  constructor
  · rintro ⟨i, hi, _, hlt, slot, ⟨hslot, rfl⟩, rfl⟩
    exact ⟨i, hi, hlt, hslot, rfl⟩
  · rintro ⟨i, hi, hlt, hslot, rfl⟩
    exact ⟨i, hi, (), hlt, _, ⟨hslot, rfl⟩, rfl⟩

theorem weighBlocks_spec {blocks : List ℕ} {weights : List BlockWeight}
    (hw : ∀ w ∈ weights, values w.value) (h : p.weighBlocks blocks weights counters = .ok q) :
    p.global? counters = none ∧
      q.globals = p.globals ++ [(Pass.weights counters).global blocks.sum] ∧
      p.Edited False (Pass.Adds values blocks.sum (.weights counters)) q := by
  simp only [weighBlocks, Outcome.bind_eq_ok_iff, narrow_eq_ok_iff, declare_eq_ok_iff] at h
  obtain ⟨updates, hupdates, len, ⟨-, rfl⟩, mid, ⟨hnone, rfl⟩, h⟩ := h
  have hlocated : ∀ u ∈ updates, u.slot < blocks.sum ∧ values u.value := by
    intro u hu
    obtain ⟨w, hmem, hlocated⟩ := Outcome.exists_of_mem_mapM hupdates hu
    obtain ⟨i, -, hlt, -, rfl⟩ := locateWeight_eq_ok_iff.mp hlocated
    exact ⟨sum_take_add_lt hlt, hw w hmem⟩
  have hstep : ∀ u ∈ updates, ∀ p q, weigh counters p u = .ok q →
      q.globals = p.globals ∧
        p.Edited False (Pass.Adds values blocks.sum (.weights counters)) q := by
    intro u hu p' q' hstep
    obtain ⟨hslot, hvalue⟩ := hlocated u hu
    exact update_edited hstep fun f g hfg => .insertAtEnd (.addWeight hslot hvalue) hfg
  obtain ⟨hglobals, hedited⟩ := foldlM_edited hstep h
  exact ⟨hnone, hglobals, (Edited.of_functions_eq rfl).trans hedited⟩

theorem slotsBefore_add_le {functions : List (Function × ℕ)} {i : ℕ} {f : Function} {limit : ℕ}
    (h : functions[i]? = some (f, limit)) :
    slotsBefore functions i + f.countedSlots limit ≤
      (functions.map fun x => x.1.countedSlots x.2).sum := by
  have hi : (functions.map fun x => x.1.countedSlots x.2)[i]? = some (f.countedSlots limit) := by
    simp [h]
  have hle := sum_take_add_le hi
  rwa [← List.map_take] at hle

/-- The pass over all functions, function by function. -/
theorem countEdges_eq_ok {blocks : List ℕ} (hblocks : blocks.length = p.functions.length)
    (h : p.countEdges blocks counters = .ok q) :
    p.global? counters = none ∧
      q.globals =
        p.globals ++ [(Pass.edges counters).global ((Pass.edges counters).size blocks p)] ∧
      q.functions.length = p.functions.length ∧
      ∀ (i : ℕ) (f : Function), p.functions[i]? = some f → ∃ limit g, blocks[i]? = some limit ∧
        q.functions[i]? = some g ∧
        if f.isDeclaration then g = f
        else f.countEdges counters limit (slotsBefore (p.functions.zip blocks) i) = .ok g := by
  simp only [countEdges, Outcome.bind_eq_ok_iff, narrow_eq_ok_iff, declare_eq_ok_iff,
    Outcome.require_eq_ok_iff, Outcome.pure_eq_ok_iff, Prod.exists] at h
  obtain ⟨len, ⟨-, rfl⟩, mid, ⟨hnone, rfl⟩, counted, last, hcount, _, -, rfl⟩ := h
  obtain ⟨hlen, hspec⟩ := countFunctions_spec hcount
  refine ⟨hnone, rfl, by simp [hlen, hblocks], ?_⟩
  intro i f hf
  have hi : i < blocks.length := by
    rw [hblocks]
    exact (List.getElem?_eq_some_iff.mp hf).1
  have hzip : (p.functions.zip blocks)[i]? = some (f, blocks[i]) := by
    rw [List.getElem?_zip_eq_some]
    exact ⟨hf, List.getElem?_eq_getElem hi⟩
  obtain ⟨g, hg, hcase⟩ := hspec i f blocks[i] hzip
  rw [Nat.zero_add] at hcase
  exact ⟨blocks[i], g, List.getElem?_eq_getElem hi, hg, hcase⟩

variable (values) in
theorem countEdges_spec {blocks : List ℕ} (hblocks : blocks.length = p.functions.length)
    (h : p.countEdges blocks counters = .ok q) :
    p.global? counters = none ∧
      q.globals =
        p.globals ++ [(Pass.edges counters).global ((Pass.edges counters).size blocks p)] ∧
      p.Edited True
        (Pass.Adds values ((Pass.edges counters).size blocks p) (.edges counters)) q := by
  obtain ⟨hnone, hglobals, hlen, hspec⟩ := countEdges_eq_ok hblocks h
  refine ⟨hnone, hglobals, edited_iff.mpr ⟨hlen, ?_⟩⟩
  intro i f g hf hg
  obtain ⟨limit, g', hlimit, hg', hcase⟩ := hspec i f hf
  obtain rfl : g = g' := Option.some.inj (hg.symm.trans hg')
  by_cases hdecl : f.isDeclaration
  · rw [if_pos hdecl] at hcase
    exact hcase ▸ .refl
  · rw [if_neg hdecl] at hcase
    have hzip : (p.functions.zip blocks)[i]? = some (f, limit) := by
      rw [List.getElem?_zip_eq_some]
      exact ⟨hf, hlimit⟩
    have hslots := slotsBefore_add_le hzip
    rw [Function.countedSlots, if_neg hdecl] at hslots
    refine (Function.countEdges_edited hcase).mono id ?_
    rintro inst ⟨hlow, hhigh⟩
    exact .increment (Nat.lt_of_lt_of_le hhigh (by rwa [← Nat.add_assoc] at hslots))

end Program

/-- A pass declares its array, and inserts its instructions. -/
theorem Instrumenter.pass_spec {ins : Instrumenter} {blocks : List ℕ} {p q : Program}
    {values : Operand → Prop} (hblocks : blocks.length = p.functions.length)
    (hp : p.Copies values) (hw : ∀ w ∈ ins.weights, values w.value) {pass : Pass}
    (h : ins.pass blocks p pass = .ok q) :
    p.global? pass.counters = none ∧
      q.globals = p.globals ++ [pass.global (pass.size blocks p)] ∧
      p.Edited pass.Splits (pass.Adds values (pass.size blocks p)) q := by
  cases pass with
  | edges counters => exact Program.countEdges_spec values hblocks h
  | rank counters => exact Program.trapRank_spec hp h
  | comm counters => exact Program.trapComm_spec hp h
  | time counters => exact Program.trapTime_spec values h
  | weights counters => exact Program.weighBlocks_spec hw h

end FlowProfile
