import FlowProfile.Proofs.Profile.Additive

/-!
# Bindings of profiles of the same kinds

Profiles that have the same kinds of counters are bound in the same way, and so is their sum. Every
count of its binding is the sum of the counts at the same place of both bindings, whether it was
counted there or derived from others.
-/

namespace FlowProfile

namespace TrappedCall

/-- Two calls at one place. -/
structure SamePlace (c d : TrappedCall) : Prop where
  index : d.index = c.index
  site : d.site = c.site

/-- What was counted of two calls at one place. -/
def add (c d : TrappedCall) : TrappedCall :=
  { c with
    calls := Count.saturatingAdd c.calls d.calls
    bytes := Count.saturatingAdd c.bytes d.bytes }

/-- Calls that are the sums of those at the same places in two other lists. -/
def AreSums (sums cs ds : List TrappedCall) : Prop :=
  ∃ pairs : List (TrappedCall × TrappedCall), (∀ pair ∈ pairs, pair.1.SamePlace pair.2) ∧
    cs = pairs.map Prod.fst ∧ ds = pairs.map Prod.snd ∧
    sums = pairs.map fun pair => pair.1.add pair.2

/-- Counters of the same sites add up to those of the calls. -/
theorem areSums_sites {σ α : Type} {add : α → α → α} {call call' sum : (σ × α) × ℕ → TrappedCall}
    (hplace : ∀ i site c d, (call ((site, c), i)).SamePlace (call' ((site, d), i)))
    (hadd : ∀ i site c d,
      sum ((site, add c d), i) = (call ((site, c), i)).add (call' ((site, d), i)))
    (sites : List σ) {cs ds : List α} (hlen : cs.length = ds.length) :
    AreSums ((sites.zip (cs.zipWith add ds)).zipIdx.map sum) ((sites.zip cs).zipIdx.map call)
      ((sites.zip ds).zipIdx.map call') := by
  -- all three lists read the same list of sites and pairs of counters
  have hmap : ∀ (read : α × α → α) (entry : (σ × α) × ℕ → TrappedCall),
      (sites.zip ((cs.zip ds).map read)).zipIdx.map entry =
        (sites.zip (cs.zip ds)).zipIdx.map fun q => entry ((q.1.1, read q.1.2), q.2) := by
    intro read entry
    rw [List.zip_map_right, List.zipIdx_map, List.map_map]
    rfl
  have hcs := hmap Prod.fst call
  have hds := hmap Prod.snd call'
  have hsum := hmap (Function.uncurry add) sum
  rw [List.map_fst_zip hlen.le] at hcs
  rw [List.map_snd_zip hlen.ge] at hds
  rw [List.map_uncurry_zip_eq_zipWith] at hsum
  refine ⟨(sites.zip (cs.zip ds)).zipIdx.map fun q =>
    (call ((q.1.1, q.1.2.1), q.2), call' ((q.1.1, q.1.2.2), q.2)), ?_, ?_, ?_, ?_⟩
  · simp only [List.mem_map]
    rintro _ ⟨q, -, rfl⟩
    exact hplace ..
  · rw [hcs, List.map_map]
    rfl
  · rw [hds, List.map_map]
    rfl
  · rw [hsum, List.map_map]
    exact List.map_congr_left fun q _ => hadd ..

end TrappedCall

/-- The counts of two bindings of one program, added up place by place. -/
structure Binding.IsSum (z x y : Binding) : Prop where
  program : x.program = z.program ∧ y.program = z.program
  hasBlockCounts : x.hasBlockCounts = z.hasBlockCounts ∧ y.hasBlockCounts = z.hasBlockCounts
  executions : ∀ function block, z.executionCount function block =
    Count.saturatingAdd (x.executionCount function block) (y.executionCount function block)
  trapped : TrappedCall.AreSums z.trapped x.trapped y.trapped

namespace Binding.IsSum

variable {x y z : Binding}

/-- How often calls at one place were made adds up, wherever that is read from. -/
theorem blockFrequency (h : z.IsSum x y) {c d : TrappedCall} (hplace : c.SamePlace d) :
    z.blockFrequency (c.add d) =
      Count.saturatingAdd (x.blockFrequency c) (y.blockFrequency d) := by
  unfold Binding.blockFrequency
  rw [h.hasBlockCounts.1, h.hasBlockCounts.2, hplace.site]
  split
  case isTrue => exact h.executions _ _
  case isFalse => rfl

end Binding.IsSum

namespace Profile

/-- Each kind of counters is in both profiles or in none. -/
def SameKinds (a b : Profile) : Prop := ∀ kind, (a.size? kind).isSome = (b.size? kind).isSome

variable {p : Program} {a b : Profile} {x y : Binding}

theorem none_or_some {α : Type} {xs ys : Option α} (h : xs.isSome = ys.isSome) :
    xs = none ∧ ys = none ∨ ∃ x y, xs = some x ∧ ys = some y := by
  cases xs <;> cases ys <;> simp_all

theorem SameKinds.edges (h : a.SameKinds b) : a.edgeCounts.isSome = b.edgeCounts.isSome := by
  simpa [size?] using h .edges

theorem SameKinds.blocks (h : a.SameKinds b) : a.blockCounts.isSome = b.blockCounts.isSome := by
  simpa [size?] using h .blocks

theorem SameKinds.comm (h : a.SameKinds b) : a.comm.isSome = b.comm.isSome := by
  simpa [size?] using h .comm

theorem SameKinds.legacy (h : a.SameKinds b) : a.legacyComm.isSome = b.legacyComm.isSome := by
  simpa [size?] using h .legacyComm

theorem executionsIn_sum (hagree : a.Agrees b) (hkinds : a.SameKinds b)
    {fx fy fz : List FunctionCounts} (hx : bindCounts p a = .ok fx) (hy : bindCounts p b = .ok fy)
    (hz : bindCounts p (a.sum b) = .ok fz) (function : ℕ) (block : BlockId) :
    executionsIn fz function block =
      Count.saturatingAdd (executionsIn fx function block) (executionsIn fy function block) := by
  obtain ⟨hedges, hblocks, -⟩ := agrees_iff.mp hagree
  rw [executionsIn_of_bindCounts hx, executionsIn_of_bindCounts hy, executionsIn_of_bindCounts hz,
    ← hkinds.edges]
  have hsome : (a.sum b).edgeCounts.isSome = (a.edgeCounts.isSome || b.edgeCounts.isSome) :=
    Option.isSome_merge
  rw [hsome, ← hkinds.edges, Bool.or_self]
  split
  · exact countIn_sumSlots Function.additive_ofEdgeCounts _ hedges function block
  · exact countIn_sumSlots Function.additive_ofBlockCounts _ hblocks function block

theorem bindPayloads_sum (hagree : a.Agrees b) (hkinds : a.SameKinds b)
    {fx fy fz : List FunctionCounts} (hexecutions : ∀ function block,
      executionsIn fz function block =
        Count.saturatingAdd (executionsIn fx function block) (executionsIn fy function block))
    {cx cy cz : List TrappedCall} (hx : bindPayloads p a fx = .ok cx)
    (hy : bindPayloads p b fy = .ok cy) (hz : bindPayloads p (a.sum b) fz = .ok cz) :
    TrappedCall.AreSums cz cx cy := by
  obtain ⟨-, -, hlegacy, -, -, hcomm⟩ := agrees_iff.mp hagree
  rcases none_or_some hkinds.comm with ⟨hac, hbc⟩ | ⟨cs, ds, hac, hbc⟩
  · have hsum : (a.sum b).comm = none := sumSlots_eq_none_iff.mpr ⟨hac, hbc⟩
    rcases none_or_some hkinds.legacy with ⟨hal, hbl⟩ | ⟨cs, ds, hal, hbl⟩
    · have hlegacySum : (a.sum b).legacyComm = none := sumSlots_eq_none_iff.mpr ⟨hal, hbl⟩
      rw [bindPayloads, hac, hal] at hx
      rw [bindPayloads, hbc, hbl] at hy
      rw [bindPayloads, hsum, hlegacySum] at hz
      obtain rfl := Except.ok.inj hx
      obtain rfl := Except.ok.inj hy
      obtain rfl := Except.ok.inj hz
      exact ⟨[], List.forall_mem_nil _, rfl, rfl, rfl⟩
    · have hlegacySum : (a.sum b).legacyComm = some (cs.zipWith Count.saturatingAdd ds) := by
        simp [sum, hal, hbl]
      obtain ⟨-, rfl⟩ := (bindPayloads_legacy hac hal).mp hx
      obtain ⟨-, rfl⟩ := (bindPayloads_legacy hbc hbl).mp hy
      obtain ⟨-, rfl⟩ := (bindPayloads_legacy hsum hlegacySum).mp hz
      refine TrappedCall.areSums_sites (fun _ _ _ _ => ⟨rfl, rfl⟩) (fun _ site _ _ => ?_) _
        (hlegacy cs hal ds hbl)
      rw [hexecutions]
      rfl
  · have hsum : (a.sum b).comm = some (cs.zipWith CommCounter.add ds) := by
      simp [sum, hac, hbc]
    obtain ⟨-, rfl⟩ := (bindPayloads_full hac).mp hx
    obtain ⟨-, rfl⟩ := (bindPayloads_full hbc).mp hy
    obtain ⟨-, rfl⟩ := (bindPayloads_full hsum).mp hz
    exact TrappedCall.areSums_sites (fun _ _ _ _ => ⟨rfl, rfl⟩) (fun _ _ _ _ => rfl) _
      (hcomm cs hac ds hbc)

/-- The sum of two profiles can be bound if each of them can be, and every count adds up. -/
theorem bind_sum (hagree : a.Agrees b) (hkinds : a.SameKinds b) (hx : a.bind p = .ok x)
    (hy : b.bind p = .ok y) : ∃ z, (a.sum b).bind p = .ok z ∧ z.IsSum x y := by
  obtain ⟨z, hz⟩ := exists_bind_iff.mpr
    ((exists_bind_iff.mp ⟨x, hx⟩).sum hagree (exists_bind_iff.mp ⟨y, hy⟩))
  refine ⟨z, hz, ?_⟩
  obtain ⟨fx, cx, _, hfx, -, hcx, -, rfl⟩ := bind_eq_ok_iff.mp hx
  obtain ⟨fy, cy, _, hfy, -, hcy, -, rfl⟩ := bind_eq_ok_iff.mp hy
  obtain ⟨fz, cz, _, hfz, -, hcz, -, rfl⟩ := bind_eq_ok_iff.mp hz
  have hexecutions := executionsIn_sum hagree hkinds hfx hfy hfz
  have hedges : (a.sum b).edgeCounts.isSome = a.edgeCounts.isSome := by
    rw [sum, Option.isSome_merge, ← hkinds.edges, Bool.or_self]
  have hblocks : (a.sum b).blockCounts.isSome = a.blockCounts.isSome := by
    rw [sum, Option.isSome_merge, ← hkinds.blocks, Bool.or_self]
  constructor
  · exact ⟨rfl, rfl⟩
  · simp only [hedges, hblocks, hkinds.edges, hkinds.blocks, and_self]
  · exact hexecutions
  · exact bindPayloads_sum hagree hkinds hexecutions hcx hcy hcz

end Profile

end FlowProfile
