import FlowProfile.Proofs.Exec.Executions
import FlowProfile.Proofs.Profile.Fits

/-!
# Where a binding finds edge counts

The reader of a profile cuts the counters into functions and blocks by lengths alone. The
place where it looks for an edge is the slot that the edge was given.
-/

namespace FlowProfile

theorem getElem?_cut {α : Type} {ns : List ℕ} {xs : List α} {i n : ℕ} (h : ns[i]? = some n) :
    (cut ns xs)[i]? = some ((xs.drop (ns.take i).sum).take n) := by
  induction ns generalizing i xs with
  | nil => simp at h
  | cons m ns ih =>
      cases i with
      | zero =>
          obtain rfl : m = n := by simpa using h
          simp [cut]
      | succ i =>
          rw [cut, List.getElem?_cons_succ, ih (by simpa using h), List.drop_drop,
            List.take_succ_cons, List.sum_cons]

/-- Pieces of numbered lengths, at a place in one of them. -/
theorem getElem?_flatMap_range {α : Type} (xs : List α) (weight : α → ℕ) {k b succ : ℕ} {x : α}
    (hx : xs[b]? = some x) (hs : succ < weight x) :
    ((xs.zipIdx k).flatMap fun y => (List.range (weight y.1)).map (y.2, ·))[
      ((xs.map weight).take b).sum + succ]? = some (k + b, succ) := by
  induction xs generalizing k b with
  | nil => simp at hx
  | cons y xs ih =>
      rw [List.zipIdx_cons, List.flatMap_cons]
      cases b with
      | zero =>
          obtain rfl : y = x := by simpa using hx
          rw [List.getElem?_append_left (by simpa using hs)]
          simp [hs]
      | succ b =>
          have hrest := ih (k := k + 1) (by simpa using hx)
          rw [List.getElem?_append_right (by simp; omega)]
          simp only [List.length_map, List.length_range, List.map_cons, List.take_succ_cons,
            List.sum_cons]
          rw [show weight y + ((xs.map weight).take b).sum + succ - weight y =
            ((xs.map weight).take b).sum + succ by omega, hrest]
          simp only [Option.some.injEq, Prod.mk.injEq, and_true]
          omega

namespace Function

theorem getElem?_edges {f : Function} {b succ : ℕ} (h : f.HasEdge (b, succ)) :
    (f.edges f.blocks.length)[(f.edgeCounts.take b).sum + succ]? = some (b, succ) := by
  have hlt : b < f.blocks.length := h.lt
  have hb := List.getElem?_eq_getElem hlt
  have hs : succ < f.blocks[b].terminator.successors.length := by
    have hedge : succ < (f.successors b).length := h
    rwa [successors_eq hb] at hedge
  have hget := getElem?_flatMap_range f.blocks (fun block => block.terminator.successors.length)
    (k := 0) hb hs
  rw [Nat.zero_add] at hget
  unfold edges edgeCounts
  rw [List.take_length]
  exact hget

/-- Where an edge leads. -/
def target (f : Function) (edge : BlockId × ℕ) : BlockId := ((f.successors edge.1)[edge.2]?).getD 0

/-- The successors of all blocks are the targets of all edges. -/
theorem flatMap_successors (f : Function) :
    f.blocks.flatMap (·.terminator.successors) = (f.edges f.blocks.length).map f.target := by
  have hpiece : ∀ x ∈ f.blocks.zipIdx,
      ((List.range x.1.terminator.successors.length).map (x.2, ·)).map f.target =
        x.1.terminator.successors := by
    rintro ⟨block, b⟩ hmem
    have hb := List.mk_mem_zipIdx_iff_getElem?.mp hmem
    apply List.ext_getElem
    · simp
    · intro succ hs hs'
      simp [target, successors_eq hb, List.getElem?_eq_getElem hs']
  unfold edges
  rw [List.take_length, List.map_flatMap, List.flatMap_congr hpiece]
  calc f.blocks.flatMap (·.terminator.successors)
      = (f.blocks.zipIdx.map Prod.fst).flatMap (·.terminator.successors) := by
        rw [List.zipIdx_map_fst]
    _ = f.blocks.zipIdx.flatMap fun x => x.1.terminator.successors := List.flatMap_map _ _ _

theorem edgesInto_eq (f : Function) (b : BlockId) :
    f.edgesInto b = (f.edges f.blocks.length).filter fun e => f.target e = b := by
  apply List.filter_congr
  intro e he
  have hedge : e.2 < (f.successors e.1).length := (mem_edges.mp he).2
  simp [target, List.getElem?_eq_getElem hedge]

end Function

/-- The counts at the edges with some target, for a list of counts in the order of the edges. -/
theorem sum_zip_filter {α : Type} {edges : List α} {counts : List UInt64} (target : α → ℕ)
    (taken : α → ℕ) (b : ℕ)
    (h : ∀ (j : ℕ) (e : α), edges[j]? = some e →
      ∃ c : UInt64, counts[j]? = some c ∧ c.toNat = taken e) :
    ((((edges.map target).zip counts).filter fun x => x.1 == b).map fun x => x.2.toNat).sum =
      ((edges.filter fun e => target e = b).map taken).sum := by
  induction edges generalizing counts with
  | nil => simp
  | cons e edges ih =>
      obtain ⟨c, hc, hcount⟩ := h 0 e (by simp)
      cases counts with
      | nil => simp at hc
      | cons c' counts =>
          obtain rfl : c' = c := by simpa using hc
          have htail : ∀ (j : ℕ) (e : α), edges[j]? = some e →
              ∃ c : UInt64, counts[j]? = some c ∧ c.toNat = taken e := fun j e' he' => by
            simpa using h (j + 1) e' (by simpa using he')
          have hrest := ih htail
          by_cases htarget : target e = b
          · simp [htarget, hcount, hrest]
          · simp [htarget, hrest]

namespace Binding

variable {p : Program} {binding : Binding} {counts : List UInt64} {i : ℕ} {f : Function}

/-- The counts of edges, cut into functions. -/
def BoundEdges (p : Program) (counts : List UInt64) (binding : Binding) : Prop :=
  binding.functions =
    p.functions.zipWith Function.ofEdgeCounts (cut (p.functions.map Function.slots) counts)

theorem BoundEdges.function_eq (h : binding.BoundEdges p counts) (hf : p.functions[i]? = some f)
    (hdef : f.isDeclaration = false) {entries : UInt64}
    (hentries : counts[p.entrySlot i]? = some entries) :
    binding.functions[i]? = some (f.ofEdgeCounts
      (entries :: (counts.drop (p.entrySlot i + 1)).take (f.edges f.blocks.length).length)) := by
  have hslots : (p.functions.map Function.slots)[i]? = some f.slots := by simp [hf]
  obtain ⟨hlt, hget⟩ := List.getElem?_eq_some_iff.mp hentries
  rw [h, List.getElem?_zipWith_eq_some]
  refine ⟨f, _, hf, getElem?_cut hslots, ?_⟩
  have hdrop := List.drop_eq_getElem_cons hlt
  rw [hget] at hdrop
  change f.ofEdgeCounts ((counts.drop (p.entrySlot i)).take f.slots) = _
  rw [hdrop, Function.slots_eq hdef, Nat.add_comm 1, List.take_succ_cons]

/-- What a binding reports, when each slot holds the number of takings of its edge. -/
theorem BoundEdges.counts_eq (h : binding.BoundEdges p counts) (hf : p.functions[i]? = some f)
    (hdef : f.isDeclaration = false) {entered : ℕ} (taken : BlockId × ℕ → ℕ)
    (hentry : ∃ c : UInt64, counts[p.entrySlot i]? = some c ∧ c.toNat = entered)
    (hedges : ∀ (j : ℕ) (e : BlockId × ℕ), (f.edges f.blocks.length)[j]? = some e →
      ∃ c : UInt64, counts[p.entrySlot i + 1 + j]? = some c ∧ c.toNat = taken e) :
    (binding.functionCount i).map UInt64.toNat = some entered ∧
      (∀ b succ, f.HasEdge (b, succ) →
        (binding.edgeCount i b succ).map UInt64.toNat = some (taken (b, succ))) ∧
      ∀ b, b < f.blocks.length → (binding.executionCount i b).toNat =
        min ((if b = 0 then entered else 0) + ((f.edgesInto b).map taken).sum) (2 ^ 64 - 1) := by
  obtain ⟨entries, hentries, rfl⟩ := hentry
  have hfunction := h.function_eq hf hdef hentries
  set rest := (counts.drop (p.entrySlot i + 1)).take (f.edges f.blocks.length).length with hrest
  have htaken : ∀ (j : ℕ) (e : BlockId × ℕ), (f.edges f.blocks.length)[j]? = some e →
      ∃ c : UInt64, rest[j]? = some c ∧ c.toNat = taken e := by
    intro j e he
    obtain ⟨c, hc, hcount⟩ := hedges j e he
    refine ⟨c, ?_, hcount⟩
    rw [hrest, List.getElem?_take_of_lt (List.getElem?_eq_some_iff.mp he).1, List.getElem?_drop]
    exact hc
  refine ⟨?_, ?_, ?_⟩
  · rw [functionCount, hfunction]
    rfl
  · intro b succ hedge
    obtain ⟨c, hc, hcount⟩ := htaken _ _ (Function.getElem?_edges hedge)
    have hlt : b < f.blocks.length := hedge.lt
    have hb := List.getElem?_eq_getElem hlt
    have hs : succ < (f.blocks[b].terminator.successors.length) := by
      have hlt : succ < (f.successors b).length := hedge
      rwa [Function.successors_eq hb] at hlt
    have hpiece : f.edgeCounts[b]? = some f.blocks[b].terminator.successors.length := by
      simp [Function.edgeCounts, hb]
    rw [edgeCount, hfunction]
    simp only [Option.bind_some, Function.ofEdgeCounts, getElem?_cut hpiece]
    rw [List.getElem?_take_of_lt hs, List.getElem?_drop, hc, Option.map_some, hcount]
  · intro b hb
    have hblock : (f.ofEdgeCounts (entries :: rest)).blocks[b]? =
        some (f.executions entries rest b) := by
      simp [Function.ofEdgeCounts, hb]
    rw [executionCount, Profile.executionsIn, hfunction, Option.bind_some, hblock,
      Option.getD_some, Function.executions, Count.toNat_saturate, f.flatMap_successors,
      sum_zip_filter f.target taken b htaken, f.edgesInto_eq]

end Binding

end FlowProfile
