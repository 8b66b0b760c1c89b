import FlowProfile.Proofs.Graph.Refinement
import FlowProfile.Proofs.Instrument.CriticalEdges

/-!
# Splitting edges one after the other

To split a critical edge adds one block and redirects one edge. All else stays, and no other edge
becomes critical or ceases to be. So the order does not matter in which some edges are split: those
that are critical at first are, and no others.
-/

namespace FlowProfile.Function

variable {f : Function} {b : BlockId} {succ : ℕ} {edges : List (BlockId × ℕ)}

/-! ### One edge -/

/-- In `g` the edge leads through a block of its own, and nothing else is different. -/
structure Bypassed (f : Function) (b : BlockId) (succ : ℕ) (g : Function) : Prop where
  name : g.name = f.name
  length : g.blocks.length = f.blocks.length + 1
  /-- The new block leads to where the edge led, and does nothing else. -/
  fresh : ∃ dest block, (f.successors b)[succ]? = some dest ∧
    g.blocks[f.blocks.length]? = some block ∧ block.insts = [] ∧ block.terminator = .br dest
  /-- The blocks that were there differ in nothing but their targets. -/
  kept : ∀ (x : ℕ) (old : Block), f.blocks[x]? = some old → ∃ block, g.blocks[x]? = some block ∧
    block.name = old.name ∧ block.insts = old.insts ∧
    block.terminator.mapTargets (fun _ => 0) = old.terminator.mapTargets fun _ => 0
  target : ∀ x i : ℕ, x < f.blocks.length → (g.successors x)[i]? =
    if (x, i) = (b, succ) then some f.blocks.length else (f.successors x)[i]?
  successorCount : ∀ x < f.blocks.length, (g.successors x).length = (f.successors x).length
  predecessorCount : ∀ x < f.blocks.length, g.predecessorCount x = f.predecessorCount x
  freshPredecessor : g.predecessorCount f.blocks.length = 1
  critical : ∀ x i : ℕ, x < f.blocks.length →
    g.isCritical x i = (f.isCritical x i && (x, i) ≠ (b, succ))
  freshCritical : ∀ i, g.isCritical f.blocks.length i = false

theorem bypassed_split {source target : Block} {dest : BlockId} (hf : ¬f.Dangles)
    (hs : f.blocks[b]? = some source) (hd : source.terminator.successors[succ]? = some dest) :
    f.Bypassed b succ (f.split b succ (crossing source target dest)) where
  name := rfl
  length := length_split ..
  fresh := by
    refine ⟨dest, crossing source target dest, by rw [successors_eq hs, hd], ?_, rfl, rfl⟩
    rw [getElem?_split, if_pos rfl]
  kept x old hx := by
    have hlt : x < f.blocks.length := (List.getElem?_eq_some_iff.mp hx).1
    rw [getElem?_split, if_neg hlt.ne, hx, Option.map_some]
    refine ⟨_, rfl, ?_⟩
    by_cases hb : b = x
    · subst hb
      obtain rfl := Option.some.inj (hs.symm.trans hx)
      rw [if_pos rfl]
      exact ⟨rfl, rfl, Terminator.mapTargets_redirect hd rfl⟩
    · rw [if_neg hb]
      exact ⟨rfl, rfl, rfl⟩
  target x i hx := by
    split
    case isTrue heq =>
        obtain ⟨rfl, rfl⟩ := Prod.mk.inj heq
        exact getElem?_successors_split_self (.of_getElem? (by rw [successors_eq hs, hd]))
    case isFalse hne => exact getElem?_successors_split (e := (x, i)) hx hne
  successorCount x hx := length_successors_split hx
  predecessorCount x hx := by
    rw [predecessorCount_split hs hd, if_neg hx.ne', Nat.add_zero]
  freshPredecessor := by
    rw [predecessorCount_split hs hd, if_pos rfl, predecessorCount_eq_zero hf le_rfl]
  critical x i hx := isCritical_split (e := (x, i)) hf hs hd hx
  freshCritical i := by
    rw [isCritical, successors_split, if_pos rfl]
    split <;> rfl

/-- A critical edge is split, and nothing is done about any other one. -/
theorem splitCritical_spec (hf : ¬f.Dangles) (hb : b < f.blocks.length) (succ : ℕ) :
    ∃ g fresh, f.splitCritical b succ = .ok (g, fresh) ∧
      if f.isCritical b succ then fresh = some f.blocks.length ∧ f.Bypassed b succ g
      else fresh = none ∧ g = f := by
  cases hc : f.isCritical b succ with
  | false => exact ⟨f, none, splitCritical_of_not hb hc, rfl, rfl⟩
  | true =>
      obtain ⟨source, target, dest, hs, hd, hsplit⟩ := splitCritical_of_isCritical hf hc
      exact ⟨_, _, hsplit, rfl, bypassed_split hf hs hd⟩

/-! ### Some edges in any order -/

/-- Splits each edge of a list that is critical when its turn comes, and tells which ones were. -/
def splitEach (f : Function) : List (BlockId × ℕ) → Outcome (Function × List (BlockId × ℕ))
  | [] => .ok (f, [])
  | edge :: edges => do
    let (mid, fresh) ← f.splitCritical edge.1 edge.2
    let (g, split) ← mid.splitEach edges
    return (g, if fresh.isSome then edge :: split else split)

/-- The edges that are critical when their turn comes are those that were critical at first. -/
theorem exists_splitEach (hf : ¬f.Dangles) (hnodup : edges.Nodup)
    (hedges : ∀ e ∈ edges, f.HasEdge e) :
    ∃ g, f.splitEach edges = .ok (g, f.criticalAmong edges) ∧ f.Separated edges g := by
  induction edges generalizing f with
  | nil => exact ⟨f, rfl, .nil f⟩
  | cons edge edges ih =>
      obtain ⟨hnew, hnodup'⟩ := List.nodup_cons.mp hnodup
      obtain ⟨hedge, htail⟩ := List.forall_mem_cons.mp hedges
      cases hc : f.isCritical edge.1 edge.2 with
      | false =>
          obtain ⟨g, hg, hseparated⟩ := ih hf hnodup' htail
          refine ⟨g, ?_, hseparated.cons_of_not hc⟩
          rw [splitEach, splitCritical_of_not hedge.lt hc, Outcome.ok_bind,
            criticalAmong_cons_of_not hc]
          simp only [hg, Outcome.ok_bind]
          rfl
      | true =>
          obtain ⟨source, target, dest, hs, hd, hsplit⟩ := splitCritical_of_isCritical hf hc
          have hmid : ¬(f.split edge.1 edge.2 (crossing source target dest)).Dangles :=
            not_dangles_split hf hs hd
          obtain ⟨g, hg, hseparated⟩ := ih hmid hnodup' fun e he => (htail e he).split
          rw [criticalAmong_split hf hs hd hnew htail] at hg
          refine ⟨g, ?_, .cons_split hf hs hd hc hnodup htail hseparated⟩
          rw [splitEach, hsplit, Outcome.ok_bind, criticalAmong_cons_of_isCritical hc]
          simp only [hg, Outcome.ok_bind]
          rfl

/-- Splitting an edge that is not critical changes nothing. Splitting a critical one disturbs
nothing else, so that of some edges the critical ones are split, whatever the order. -/
theorem splitCritical_frame (hf : ¬f.Dangles) :
    (∀ b succ, b < f.blocks.length → ∃ g fresh, f.splitCritical b succ = .ok (g, fresh) ∧
      if f.isCritical b succ then fresh = some f.blocks.length ∧ f.Bypassed b succ g
      else fresh = none ∧ g = f) ∧
      ∀ edges order : List (BlockId × ℕ), edges.Nodup → (∀ e ∈ edges, f.HasEdge e) →
        order.Perm edges → ∃ g split, f.splitEach order = .ok (g, split) ∧
          split.Perm (f.criticalAmong edges) ∧ f.Separated order g := by
  refine ⟨fun b succ hb => splitCritical_spec hf hb succ, fun edges order hnodup hedges hperm => ?_⟩
  obtain ⟨g, hg, hseparated⟩ := exists_splitEach hf (hperm.nodup_iff.mpr hnodup)
    fun e he => hedges e (hperm.subset he)
  exact ⟨g, _, hg, hperm.filter _, hseparated⟩

end FlowProfile.Function

namespace FlowProfile

/-- Every edge is critical, the loops and those back to the entry too. -/
def knot : Function where
  name := "knot"
  blocks := [
    ⟨"entry", [], .switch (.var "x") 1 [(0, 0), (1, 0), (2, 1)]⟩,
    ⟨"body", [.op "add" (some "x") [.var "x", .const 1]], .condBr (.var "y") 0 1⟩]

theorem splitCritical_frame_knot :
    (∃ g, knot.splitCritical 0 3 = .ok (g, some 2) ∧ knot.Bypassed 0 3 g) ∧
      ∃ g split, knot.splitEach [(1, 1), (0, 3), (0, 1)] = .ok (g, split) ∧
        split.Perm [(0, 1), (0, 3), (1, 1)] ∧ knot.Separated [(1, 1), (0, 3), (0, 1)] g := by
  obtain ⟨hone, hsome⟩ := Function.splitCritical_frame (f := knot) (by decide)
  constructor
  · obtain ⟨g, fresh, hsplit, hg⟩ := hone 0 3 (by decide)
    obtain ⟨rfl, hbypassed⟩ := (if_pos (by decide)).mp hg
    exact ⟨g, hsplit, hbypassed⟩
  · have hedges : ∀ e ∈ [(0, 1), (0, 3), (1, 1)], e.2 < (knot.successors e.1).length := by decide
    exact hsome [(0, 1), (0, 3), (1, 1)] [(1, 1), (0, 3), (0, 1)] (by decide) hedges (by decide)

end FlowProfile
