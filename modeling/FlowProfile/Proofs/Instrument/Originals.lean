import FlowProfile.Proofs.Exec.Places
import FlowProfile.Proofs.Graph.Refinement
import FlowProfile.Proofs.Instrument.Applied

/-!
# The plain program in an instrumented one

The instructions that were not added are those of the plain program, block by block. Its sites are
found in the same order, each at the call that it was, behind the instructions added before it.
-/

namespace FlowProfile

/-- All instructions are of the program itself. -/
def Function.IsOriginal (f : Function) : Prop :=
  ∀ block ∈ f.blocks, ∀ inst ∈ block.insts, inst.isOriginal = true

instance (f : Function) : Decidable f.IsOriginal :=
  inferInstanceAs (Decidable (∀ block ∈ f.blocks, ∀ inst ∈ block.insts, _))

/-- No instruction counts or measures, and none calls an entry point. -/
def Program.IsOriginal (p : Program) : Prop := ∀ f ∈ p.functions, f.IsOriginal

instance (p : Program) : Decidable p.IsOriginal :=
  inferInstanceAs (Decidable (∀ f ∈ p.functions, f.IsOriginal))

theorem Program.IsOriginal.hasInst {p : Program} (hp : p.IsOriginal) {inst : Inst}
    (h : p.HasInst inst) : inst.isOriginal = true := by
  obtain ⟨function, b, block, hb, hmem⟩ := h
  obtain ⟨f, hf, hb⟩ := block?_eq_some_iff.mp hb
  exact hp f (List.mem_of_getElem? hf) block (List.mem_of_getElem? hb) inst hmem

/-- Besides, no function has the name of an entry point. -/
def Program.IsUninstrumented (p : Program) : Prop :=
  p.IsOriginal ∧ ∀ f ∈ p.functions, Strategy.ofEntryPoint? f.name = none

instance (p : Program) : Decidable p.IsUninstrumented :=
  inferInstanceAs (Decidable (p.IsOriginal ∧ ∀ f ∈ p.functions, _))

theorem Inst.isOwn_of_isOriginal {inst : Inst} (h : inst.isOriginal = true) : inst.isOwn = true :=
  (Bool.and_eq_true_iff.mp h).1

theorem Inst.IsPlain.isOriginal {inst : Inst} (h : inst.IsPlain) : inst.isOriginal = true := by
  obtain ⟨hown, -, hcallee⟩ := h
  rw [Inst.isOriginal, hown, Bool.true_and, Option.isNone_iff_eq_none, Option.bind_eq_none_iff]
  exact hcallee

theorem Program.IsPlain.isOriginal {p : Program} (hp : p.IsPlain) : p.IsOriginal :=
  fun f hf block hb inst hinst => (((hp f hf).2 block hb).1 inst hinst).isOriginal

theorem Program.IsPlain.isUninstrumented {p : Program} (hp : p.IsPlain) : p.IsUninstrumented :=
  ⟨hp.isOriginal, fun f hf => (hp f hf).1⟩

theorem Strategy.isOriginal_registration (s : Strategy) : s.registration.isOriginal = false := by
  cases s <;> rfl

theorem Pass.Adds.isOriginal_eq_false {values : Operand → Prop} {len : ℕ} {pass : Pass}
    {inst : Inst} (h : pass.Adds values len inst) : inst.isOriginal = false := by
  cases h <;> rfl

theorem Inst.Added.isOriginal_eq_false {values : Operand → Prop} {used : Strategy → Prop}
    {p : Program} {inst : Inst} (h : Inst.Added values used p inst) : inst.isOriginal = false := by
  cases h with
  | pass _ _ _ ha => exact ha.isOriginal_eq_false
  | @registration s _ _ => exact s.isOriginal_registration

theorem Woven.filterMap_eq {α : Type} {f : Inst → Option α} {added : Inst → Prop}
    {xs ys : List Inst} (h : Woven added xs ys) (hadd : ∀ inst, added inst → f inst = none) :
    ys.filterMap f = xs.filterMap f := by
  induction h with
  | nil => rfl
  | own h ih => rw [List.filterMap_cons, List.filterMap_cons, ih]
  | @add inst xs ys ha h ih => rw [List.filterMap_cons_none (hadd inst ha), ih]

theorem Woven.filter_eq {added : Inst → Prop} {xs ys : List Inst} (h : Woven added xs ys)
    (hadd : ∀ inst, added inst → inst.isOriginal = false) :
    ys.filter Inst.isOriginal = xs.filter Inst.isOriginal := by
  rw [← List.filterMap_eq_filter]
  exact h.filterMap_eq fun inst ha => Option.guard_eq_none_iff.mpr (hadd inst ha)

/-- Inserting something else leaves the instructions of a kind as they are. -/
theorem filter_insertIdx {counted : Inst → Bool} {inst : Inst} (h : counted inst = false)
    (insts : List Inst) (i : ℕ) :
    (insts.insertIdx i inst).filter counted = insts.filter counted := by
  have hwoven : Woven (inst = ·) insts (insts.insertIdx i inst) :=
    (Woven.refl insts).insertIdx rfl i
  rw [← List.filterMap_eq_filter]
  refine hwoven.filterMap_eq ?_
  rintro _ rfl
  exact Option.guard_eq_none_iff.mpr h

/-- Without what was added a block is as it was. -/
theorem Woven.filter_isOriginal {added : Inst → Prop} {xs ys : List Inst} (h : Woven added xs ys)
    (hadd : ∀ inst, added inst → inst.isOriginal = false)
    (hxs : ∀ inst ∈ xs, inst.isOriginal = true) : ys.filter Inst.isOriginal = xs :=
  (h.filter_eq hadd).trans (List.filter_eq_self.mpr hxs)

/-! ### Sites -/

/-- Lists made piece by piece, where the second may have further pieces without elements. -/
theorem forall₂_flatMap_zipIdx {α β γ δ : Type} {R : γ → δ → Prop} {xs : List α} {ys : List β}
    {f : α × ℕ → List γ} {g : β × ℕ → List δ} (k : ℕ) (hlen : xs.length ≤ ys.length)
    (h : ∀ i x y, xs[i]? = some x → ys[i]? = some y →
      List.Forall₂ R (f (x, k + i)) (g (y, k + i)))
    (hrest : ∀ i y, xs.length ≤ i → ys[i]? = some y → g (y, k + i) = []) :
    List.Forall₂ R ((xs.zipIdx k).flatMap f) ((ys.zipIdx k).flatMap g) := by
  induction xs generalizing ys k with
  | nil =>
      have hnil : (ys.zipIdx k).flatMap g = [] := by
        rw [List.flatMap_eq_nil_iff]
        rintro ⟨y, i⟩ hmem
        obtain ⟨hle, hget⟩ := List.mk_mem_zipIdx_iff_le_and_getElem?_sub.mp hmem
        have hpiece := hrest (i - k) y (Nat.zero_le _) hget
        rwa [Nat.add_sub_cancel' hle] at hpiece
      rw [hnil]
      exact .nil
  | cons x xs ih =>
      cases ys with
      | nil => simp at hlen
      | cons y ys =>
          rw [List.zipIdx_cons, List.zipIdx_cons, List.flatMap_cons, List.flatMap_cons]
          refine List.rel_append (h 0 x y rfl rfl) (ih (k + 1) (by simpa using hlen) ?_ ?_)
          · intro i x' y' hx hy
            have hpiece := h (i + 1) x' y' (by simpa using hx) (by simpa using hy)
            rwa [show k + 1 + i = k + (i + 1) by omega]
          · intro i y' hi hy
            have hpiece := hrest (i + 1) y' (by simpa using hi) (by simpa using hy)
            rwa [show k + 1 + i = k + (i + 1) by omega]

/-- The site of a numbered instruction, if it is one of the kind. -/
def Inst.site? {α : Type} (kind : CallSite → Option α) (function : ℕ) (block : BlockId)
    (inst : Inst × ℕ) : Option α :=
  (Inst.siteAt? function block inst).bind kind

theorem Program.filterMap_callSites {α : Type} (kind : CallSite → Option α) (p : Program) :
    p.callSites.filterMap kind = p.functions.zipIdx.flatMap fun f => f.1.blocks.zipIdx.flatMap
      fun b => b.1.insts.zipIdx.filterMap (Inst.site? kind f.2 b.2) := by
  simp only [callSites, Function.callSites, Block.callSites, List.filterMap_flatMap,
    List.filterMap_filterMap]
  rfl

/-- What is added is no site. -/
theorem OnlyRegisters.site?_eq_none {α : Type} {kind : CallSite → Option α} {added : Inst → Prop}
    (hadd : OnlyRegisters added)
    (hkind : ∀ c (s : Strategy), c.callee = .direct s.entryPoint → kind c = none)
    {inst : Inst} (h : added inst) (function : ℕ) (block : BlockId) (i : ℕ) :
    Inst.site? kind function block (inst, i) = none := by
  cases inst with
  | call callee args =>
      obtain ⟨s, rfl⟩ := hadd callee args h
      exact hkind _ s rfl
  | _ => rfl

/-- The instructions from a call on, and the same with added ones in between. -/
def SameFrom (added : Inst → Prop) (insts insts' : List Inst) (c d : CallSite) : Prop :=
  d = { c with inst := d.inst } ∧ insts[c.inst]? = some (.call c.callee c.args) ∧
    insts'[d.inst]? = some (.call d.callee d.args) ∧
    Woven added (insts.drop c.inst) (insts'.drop d.inst)

/-- The sites of a block and of the same block with added instructions: the same calls, each with
the same instructions behind it but for the added ones. -/
theorem Woven.sites {α : Type} {kind : CallSite → Option α} {added : Inst → Prop}
    (hplaceless : Placeless kind) (hadd : OnlyRegisters added)
    (hkind : ∀ c (s : Strategy), c.callee = .direct s.entryPoint → kind c = none) (function : ℕ)
    (block : BlockId) {insts insts' xs ys : List Inst} {i j : ℕ} (h : Woven added xs ys)
    (hx : insts.drop i = xs) (hy : insts'.drop j = ys) (hij : i ≤ j) :
    List.Forall₂ (fun s t => ∃ c d : CallSite, c.function = function ∧ c.block = block ∧
        SameFrom added insts insts' c d ∧ c.inst ≤ d.inst ∧ kind c = some s ∧ kind d = some t)
      ((xs.zipIdx i).filterMap (Inst.site? kind function block))
      ((ys.zipIdx j).filterMap (Inst.site? kind function block)) := by
  induction h generalizing i j with
  | nil => exact .nil
  | @own inst xs ys h ih =>
      have hrest := ih (i := i + 1) (j := j + 1)
        (by rw [← List.tail_drop, hx, List.tail_cons])
        (by rw [← List.tail_drop, hy, List.tail_cons]) (Nat.succ_le_succ hij)
      rw [List.zipIdx_cons, List.zipIdx_cons, List.filterMap_cons, List.filterMap_cons]
      cases inst with
      | call callee args =>
          have hsame := hplaceless ⟨function, block, i, callee, args⟩
            ⟨function, block, j, callee, args⟩ rfl rfl
          simp only [Inst.site?, Inst.siteAt?, Option.bind_some]
          cases hs : kind ⟨function, block, i, callee, args⟩ with
          | none =>
              rw [hs, Option.isSome_none, eq_comm, Option.isSome_eq_false_iff,
                Option.isNone_iff_eq_none] at hsame
              rw [hsame]
              exact hrest
          | some s =>
              rw [hs, Option.isSome_some, eq_comm, Option.isSome_iff_exists] at hsame
              obtain ⟨t, ht⟩ := hsame
              rw [ht]
              refine .cons ⟨_, _, rfl, rfl, ⟨rfl, ?_, ?_, ?_⟩, hij, hs, ht⟩ hrest
              · rw [← List.head?_drop, hx, List.head?_cons]
              · rw [← List.head?_drop, hy, List.head?_cons]
              · rw [hx, hy]
                exact h.own
      | _ => exact hrest
  | @add inst xs ys ha h ih =>
      rw [List.zipIdx_cons, List.filterMap_cons, hadd.site?_eq_none hkind ha]
      exact ih hx (by rw [← List.tail_drop, hy, List.tail_cons]) (Nat.le_succ_of_le hij)

namespace Program

variable {splitting : Prop} {added : Inst → Prop} {values : Operand → Prop}
  {used : Strategy → Prop} {p q : Program}

/-- The second call is the first one, in a program that has more instructions. -/
def SameCall (added : Inst → Prop) (p q : Program) (c d : CallSite) : Prop :=
  ∃ block block', p.block? c.function c.block = some block ∧
    q.block? c.function c.block = some block' ∧ SameFrom added block.insts block'.insts c d

/-- Edits keep all sites of a kind and their order, whatever is added before and between them. A
site has no fewer instructions before it than it had. -/
theorem Edited.sites {α : Type} {kind : CallSite → Option α} (hplaceless : Placeless kind)
    (hkind : ∀ c (s : Strategy), c.callee = .direct s.entryPoint → kind c = none)
    (hvalid : p.IsValid) (hadd : OnlyRegisters added) (h : p.Edited splitting added q) :
    List.Forall₂ (fun s t => ∃ c d, SameCall added p q c d ∧ c.inst ≤ d.inst ∧
        kind c = some s ∧ kind d = some t)
      (p.callSites.filterMap kind) (q.callSites.filterMap kind) := by
  rw [filterMap_callSites, filterMap_callSites]
  refine forall₂_flatMap_zipIdx 0 h.length_eq.ge ?_ ?_
  · intro function f g hf hg
    rw [Nat.zero_add]
    have hrefines := (h.get? hf hg).refines (hvalid f (List.mem_of_getElem? hf))
    refine forall₂_flatMap_zipIdx 0 hrefines.length ?_ ?_
    · intro b block block' hb hb'
      rw [Nat.zero_add]
      obtain ⟨_, hown, hwoven, -⟩ := hrefines.own b block hb
      obtain rfl := Option.some.inj (hb'.symm.trans hown)
      refine (hwoven.sites hplaceless hadd hkind function b rfl rfl le_rfl).imp ?_
      rintro s t ⟨c, d, rfl, rfl, hsame, hle, hs, ht⟩
      exact ⟨c, d, ⟨block, block', block?_eq_some_iff.mpr ⟨f, hf, hb⟩,
        block?_eq_some_iff.mpr ⟨g, hg, hb'⟩, hsame⟩, hle, hs, ht⟩
    · intro b block' hb hb'
      rw [Nat.zero_add, List.filterMap_eq_nil_iff]
      rintro ⟨inst, i⟩ hmem
      have ha := (hrefines.crossing b block' hb hb').1 inst (List.fst_mem_of_mem_zipIdx hmem)
      exact hadd.site?_eq_none hkind ha function b i
  · intro i g hlen hg
    have hlt := (List.getElem?_eq_some_iff.mp hg).1
    have heq := h.length_eq
    omega

/-- A site has the same number in both programs. -/
theorem Edited.exists_site {α : Type} {kind : CallSite → Option α} (hplaceless : Placeless kind)
    (hkind : ∀ c (s : Strategy), c.callee = .direct s.entryPoint → kind c = none)
    (hvalid : p.IsValid) (hadd : OnlyRegisters added) (h : p.Edited splitting added q) {i : ℕ}
    {s : α} (hs : (p.callSites.filterMap kind)[i]? = some s) :
    ∃ t c d, (q.callSites.filterMap kind)[i]? = some t ∧ SameCall added p q c d ∧
      kind c = some s ∧ kind d = some t := by
  obtain ⟨hlen, hsame⟩ := List.forall₂_iff_get.mp (h.sites hplaceless hkind hvalid hadd)
  obtain ⟨hi, rfl⟩ := List.getElem?_eq_some_iff.mp hs
  obtain ⟨c, d, hcall, -, hc, hd⟩ := hsame i hi (hlen ▸ hi)
  exact ⟨_, c, d, List.getElem?_eq_getElem (hlen ▸ hi), hcall, hc, hd⟩

end Program

end FlowProfile
