import FlowProfile.Proofs.Profile.EdgeBinding

/-!
# Counts of merged profiles

A binding of two profiles that were merged counts every execution of both, as far as a count can
tell, if they count the same kind. Beside counters of edges those of blocks are not read, so that
executions which one profile has at blocks alone are lost.
-/

namespace FlowProfile

namespace Count

@[simp] theorem saturatingAdd_zero (a : UInt64) : saturatingAdd a 0 = a := by
  apply UInt64.toNat_inj.mp
  rw [toNat_saturatingAdd]
  have hlt := a.toNat_lt
  simp only [UInt64.toNat_zero]
  omega

@[simp] theorem zero_saturatingAdd (a : UInt64) : saturatingAdd 0 a = a := by
  have hcomm : saturatingAdd 0 a = saturatingAdd a 0 := Std.Commutative.comm 0 a
  rw [hcomm, saturatingAdd_zero]

end Count

/-! ### Counts of one function -/

/-- The counts of the edges with the given targets that lead to a block. -/
def countInto (targets : List BlockId) (counts : List UInt64) (b : BlockId) : ℕ :=
  (((targets.zip counts).filter fun edge => edge.1 == b).map fun edge => edge.2.toNat).sum

/-- Saturating in every slot first makes no difference to a sum that is saturated in the end. -/
theorem countInto_zipWith (targets : List BlockId) (b : BlockId) {xs ys : List UInt64}
    (h : xs.length = ys.length) :
    min (countInto targets (xs.zipWith Count.saturatingAdd ys) b) (2 ^ 64 - 1) =
      min (countInto targets xs b + countInto targets ys b) (2 ^ 64 - 1) := by
  induction targets generalizing xs ys with
  | nil => rfl
  | cons target targets ih =>
      cases xs with
      | nil =>
          obtain rfl := List.eq_nil_of_length_eq_zero h.symm
          rfl
      | cons x xs =>
          cases ys with
          | nil => cases h
          | cons y ys =>
              have hrest := @ih xs ys (by simpa using h)
              by_cases htarget : target = b
              · simp only [countInto, List.zipWith_cons_cons, List.zip_cons_cons, htarget,
                  List.filter_cons, beq_self_eq_true, if_true, List.map_cons, List.sum_cons,
                  Count.toNat_saturatingAdd] at hrest ⊢
                omega
              · simpa [countInto, htarget] using hrest

namespace FunctionCounts

/-- The executions of a block, zero where there is none. -/
def count (c : FunctionCounts) (b : BlockId) : UInt64 := (c.blocks[b]?).getD 0

end FunctionCounts

namespace Function

theorem executions_zipWith (f : Function) (entries entries' : UInt64) {xs ys : List UInt64}
    (h : xs.length = ys.length) (b : BlockId) :
    f.executions (Count.saturatingAdd entries entries') (xs.zipWith Count.saturatingAdd ys) b =
      Count.saturatingAdd (f.executions entries xs b) (f.executions entries' ys b) := by
  have hinto := countInto_zipWith (f.blocks.flatMap (·.terminator.successors)) b h
  apply UInt64.toNat_inj.mp
  simp only [executions, Count.toNat_saturatingAdd, Count.toNat_saturate]
  simp only [countInto] at hinto
  split <;> omega

/-- Reading the counters of a function adds up if reading their sum is the sum of both readings. -/
def Additive (read : Function → List UInt64 → FunctionCounts) : Prop :=
  ∀ (f : Function) (xs ys : List UInt64), xs.length = ys.length → ∀ b,
    (read f (xs.zipWith Count.saturatingAdd ys)).count b =
      Count.saturatingAdd ((read f xs).count b) ((read f ys).count b)

theorem additive_ofEdgeCounts : Additive ofEdgeCounts := by
  intro f xs ys h b
  cases xs with
  | nil =>
      obtain rfl := List.eq_nil_of_length_eq_zero h.symm
      rcases Nat.lt_or_ge b f.blocks.length with hb | hb <;>
        simp [FunctionCounts.count, ofEdgeCounts, hb]
  | cons x xs =>
      cases ys with
      | nil => cases h
      | cons y ys =>
          have hrest := f.executions_zipWith x y (Nat.succ.inj h) b
          rcases Nat.lt_or_ge b f.blocks.length with hb | hb <;>
            simp [FunctionCounts.count, ofEdgeCounts, hb, hrest]

theorem additive_ofBlockCounts : Additive ofBlockCounts := by
  intro f xs ys h b
  rcases Nat.lt_or_ge b xs.length with hb | hb
  · have hb' : b < ys.length := h ▸ hb
    simp [FunctionCounts.count, ofBlockCounts, hb, hb']
  · have hb' : ys.length ≤ b := h ▸ hb
    simp [FunctionCounts.count, ofBlockCounts, hb, hb']

end Function

/-! ### Counts of one profile -/

/-- The executions of a block that the counters tell, each function having so many of them. -/
def Program.countIn (p : Program) (read : Function → List UInt64 → FunctionCounts)
    (size : Function → ℕ) (function : ℕ) (b : BlockId) : Option (List UInt64) → UInt64
  | none => 0
  | some counts =>
    Profile.executionsIn (p.functions.zipWith read (cut (p.functions.map size) counts)) function b

namespace Profile

variable {p : Program} {a b c : Profile} {x y : Binding}

theorem executionsIn_eq (functions : List FunctionCounts) (function : ℕ) (block : BlockId) :
    executionsIn functions function block =
      ((functions[function]?).map (·.count block)).getD 0 := by
  unfold executionsIn
  cases functions[function]? <;> rfl

theorem countIn_some {read : Function → List UInt64 → FunctionCounts} {size : Function → ℕ}
    {function : ℕ} {f : Function} (hf : p.functions[function]? = some f) (block : BlockId)
    (counts : List UInt64) :
    p.countIn read size function block (some counts) =
      (read f ((counts.drop ((p.functions.map size).take function).sum).take (size f))).count
        block := by
  have hsize : (p.functions.map size)[function]? = some (size f) := by simp [hf]
  rw [Program.countIn, executionsIn_eq,
    List.getElem?_zipWith_eq_some.mpr ⟨f, _, hf, getElem?_cut hsize, rfl⟩]
  rfl

/-- Missing counters count nothing, so that sums of all kinds are sums of counts. -/
theorem countIn_sumSlots {read : Function → List UInt64 → FunctionCounts}
    (hread : Function.Additive read) (size : Function → ℕ) {xs ys : Option (List UInt64)}
    (hfit : Fitting xs ys) (function : ℕ) (block : BlockId) :
    p.countIn read size function block (sumSlots Count.saturatingAdd xs ys) =
      Count.saturatingAdd (p.countIn read size function block xs)
        (p.countIn read size function block ys) := by
  cases xs with
  | none => simp [Program.countIn]
  | some xs =>
      cases ys with
      | none => simp [Program.countIn]
      | some ys =>
          have hlen : xs.length = ys.length := hfit xs rfl ys rfl
          change p.countIn read size function block (some (xs.zipWith Count.saturatingAdd ys)) = _
          cases hf : p.functions[function]? with
          | none => simp [Program.countIn, executionsIn_eq, List.getElem?_zipWith, hf]
          | some f =>
              rw [countIn_some hf, countIn_some hf, countIn_some hf, List.drop_zipWith,
                List.take_zipWith]
              exact hread f _ _ (by simp [hlen]) block

/-- Counters of blocks tell the executions if there are none of edges. -/
theorem executionsIn_of_bindCounts {functions : List FunctionCounts}
    (h : bindCounts p a = .ok functions) (function : ℕ) (block : BlockId) :
    executionsIn functions function block =
      if a.edgeCounts.isSome then
        p.countIn Function.ofEdgeCounts Function.slots function block a.edgeCounts
      else p.countIn Function.ofBlockCounts (·.blocks.length) function block a.blockCounts := by
  unfold bindCounts at h
  cases hedges : a.edgeCounts with
  | some counts =>
      rw [hedges] at h
      rw [(bindEdges_eq_ok_iff.mp h).2]
      rfl
  | none =>
      cases hblocks : a.blockCounts with
      | some counts =>
          simp only [hedges, hblocks] at h
          rw [(bindBlocks_eq_ok_iff.mp h).2]
          rfl
      | none =>
          simp only [hedges, hblocks] at h
          obtain rfl := Except.ok.inj h
          cases hf : p.functions[function]? with
          | none => simp [executionsIn, Program.countIn, hf]
          | some f =>
              rcases Nat.lt_or_ge block f.blocks.length with hb | hb <;>
                simp [executionsIn, Program.countIn, hf, Function.ofEdgeCounts, hb]

/-! ### Merging -/

/-- What holds of the lengths of both lists of counters holds of the length of their sum. -/
theorem length_sumSlots {α : Type} {add : α → α → α} {xs ys : Option (List α)}
    (fits : ℕ → Prop) (hfit : Fitting xs ys) (hx : ∀ x ∈ xs, fits x.length)
    (hy : ∀ y ∈ ys, fits y.length) : ∀ z ∈ sumSlots add xs ys, fits z.length := by
  cases xs with
  | none => simpa using hy
  | some x =>
      cases ys with
      | none => simpa using hx
      | some y =>
          have hlen : x.length = y.length := hfit x rfl y rfl
          simpa [← hlen] using hx

theorem sumSlots_eq_none_iff {α : Type} {add : α → α → α} {xs ys : Option (List α)} :
    sumSlots add xs ys = none ↔ xs = none ∧ ys = none := by
  cases xs <;> cases ys <;> simp

theorem Binds.sum (h : a.Agrees b) (ha : a.Binds p) (hb : b.Binds p) : (a.sum b).Binds p := by
  obtain ⟨hedges, hblocks, hlegacy, hseconds, hweights, hcomm⟩ := agrees_iff.mp h
  constructor
  · exact length_sumSlots
      (fun n => n = p.edgeSlots ∧ p.functions.all Function.edgesInRange = true) hedges ha.edges
      hb.edges
  · intro hnone
    obtain ⟨hnoneA, hnoneB⟩ := sumSlots_eq_none_iff.mp hnone
    exact length_sumSlots (· = p.blockCounts.sum) hblocks (ha.blocks hnoneA) (hb.blocks hnoneB)
  · exact length_sumSlots (· = p.payloadSites.length) hcomm ha.comm hb.comm
  · intro hnone
    obtain ⟨hnoneA, hnoneB⟩ := sumSlots_eq_none_iff.mp hnone
    exact length_sumSlots (· = p.payloadSites.length) hlegacy (ha.legacy hnoneA)
      (hb.legacy hnoneB)
  · exact length_sumSlots (· = p.timedSites.length) hseconds ha.seconds hb.seconds
  · exact length_sumSlots (· = p.blockCounts.sum) hweights ha.weights hb.weights

end Profile

/-- The executions of a block that are left of a binding beside another profile. If the other alone
counts edges, they are lost. -/
def Binding.countBeside (x : Binding) (other : Profile) (function : ℕ) (block : BlockId) : UInt64 :=
  if x.profile.edgeCounts = none ∧ other.edgeCounts ≠ none then 0
  else x.executionCount function block

namespace Profile

variable {p : Program} {a b c : Profile} {x y : Binding}

/-- What is left of a binding are its edge counters if one of the two profiles has such counters,
and its block counters otherwise. -/
theorem countBeside_of_bind (h : a.bind p = .ok x) (function : ℕ) (block : BlockId) :
    x.countBeside b function block =
      if a.edgeCounts.isSome || b.edgeCounts.isSome then
        p.countIn Function.ofEdgeCounts Function.slots function block a.edgeCounts
      else p.countIn Function.ofBlockCounts (·.blocks.length) function block a.blockCounts := by
  obtain ⟨functions, _, _, hfunctions, -, -, -, rfl⟩ := bind_eq_ok_iff.mp h
  rw [Binding.countBeside, Binding.executionCount,
    executionsIn_of_bindCounts hfunctions function block]
  cases a.edgeCounts with
  | some counts => simp
  | none => cases b.edgeCounts <;> simp [Program.countIn]

/-- Profiles that are merged can be bound if each of them can be. The executions of every block add
up, but for those of a profile without counters of edges beside one that has them. -/
theorem bind_merge (ha : a.bind p = .ok x) (hb : b.bind p = .ok y) (hc : a.merge b = .ok c) :
    ∃ z, c.bind p = .ok z ∧ ∀ function block, z.executionCount function block =
      Count.saturatingAdd (x.countBeside b function block) (y.countBeside a function block) := by
  obtain ⟨hagree, rfl⟩ := merge_eq_ok_iff.mp hc
  obtain ⟨hedges, hblocks, -⟩ := agrees_iff.mp hagree
  obtain ⟨z, hz⟩ := exists_bind_iff.mpr
    ((exists_bind_iff.mp ⟨x, ha⟩).sum hagree (exists_bind_iff.mp ⟨y, hb⟩))
  obtain ⟨functions, _, _, hfunctions, -, -, -, rfl⟩ := bind_eq_ok_iff.mp hz
  refine ⟨_, hz, fun function block => ?_⟩
  rw [countBeside_of_bind ha, countBeside_of_bind hb, Bool.or_comm b.edgeCounts.isSome,
    Binding.executionCount, executionsIn_of_bindCounts hfunctions]
  have hsome : (a.sum b).edgeCounts.isSome = (a.edgeCounts.isSome || b.edgeCounts.isSome) :=
    Option.isSome_merge
  rw [hsome]
  split
  · exact countIn_sumSlots Function.additive_ofEdgeCounts _ hedges function block
  · exact countIn_sumSlots Function.additive_ofBlockCounts _ hblocks function block

end Profile

/-- A function that does nothing. -/
def returning : Program := ⟨[⟨"main", [⟨"entry", [], .ret⟩]⟩], []⟩

/-- Of one run with counters of edges and two with counters of blocks only the first is counted. -/
theorem bind_merge_returning :
    ∃ x y c z, { Profile.empty with edgeCounts := some [1] }.bind returning = .ok x ∧
      { Profile.empty with blockCounts := some [2] }.bind returning = .ok y ∧
      Profile.merge { Profile.empty with edgeCounts := some [1] }
        { Profile.empty with blockCounts := some [2] } = .ok c ∧
      c.bind returning = .ok z ∧ x.executionCount 0 0 = 1 ∧ y.executionCount 0 0 = 2 ∧
      z.executionCount 0 0 = 1 := by
  have ha : { Profile.empty with edgeCounts := some [1] }.bind returning = .ok _ := rfl
  have hb : { Profile.empty with blockCounts := some [2] }.bind returning = .ok _ := rfl
  have hc : Profile.merge { Profile.empty with edgeCounts := some [1] }
      { Profile.empty with blockCounts := some [2] } = .ok _ := rfl
  obtain ⟨z, hz, hcount⟩ := Profile.bind_merge ha hb hc
  exact ⟨_, _, _, z, ha, hb, hc, hz, rfl, rfl, hcount 0 0⟩

/-- Binding is not additive: it makes a difference which kind of counters each profile has. -/
theorem bind_merge_not_additive :
    ¬∀ (p : Program) (a b c : Profile) (x y z : Binding), p.IsValid → a.bind p = .ok x →
      b.bind p = .ok y → a.merge b = .ok c → c.bind p = .ok z → ∀ function block,
        z.executionCount function block =
          Count.saturatingAdd (x.executionCount function block)
            (y.executionCount function block) := by
  intro h
  have hcount := h returning { Profile.empty with edgeCounts := some [1] }
    { Profile.empty with blockCounts := some [2] } _ _ _ _ (by decide) rfl rfl rfl rfl 0 0
  exact absurd hcount (by decide)

end FlowProfile
