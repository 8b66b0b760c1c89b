import FlowProfile.Proofs.Exec.Counting
import FlowProfile.Proofs.Graph.Refinement
import FlowProfile.Proofs.Instrument.EdgeSlots

/-!
# Runs of a block

In a run of an edited program, a block of the original runs as often as the edges that
lead to it in the original are taken, though some of these edges now have a block of
their own.
-/

namespace FlowProfile

theorem countP_add_eq {α : Type} (xs : List α) (a b c d : α → Bool)
    (h : ∀ x ∈ xs, (if a x then 1 else 0) + (if b x then 1 else 0) =
      (if c x then 1 else 0) + if d x then 1 else 0) :
    xs.countP a + xs.countP b = xs.countP c + xs.countP d := by
  induction xs with
  | nil => rfl
  | cons x xs ih =>
      have hx := h x List.mem_cons_self
      have hxs := ih fun y hy => h y (List.mem_cons_of_mem x hy)
      simp only [List.countP_cons]
      omega

/-- The takings of some edges are those of each of them. -/
theorem sum_departures (vs : List Visit) (function : ℕ) {edges : List (BlockId × ℕ)}
    (hnodup : edges.Nodup) :
    (edges.map fun e => departures vs function e.1 e.2).sum =
      vs.countP fun v => v.function = function ∧ v.edge.any (· ∈ edges) := by
  induction edges with
  | nil => simp
  | cons edge edges ih =>
      obtain ⟨hnew, hnodup⟩ := List.nodup_cons.mp hnodup
      have hsplit := countP_add_eq vs
        (fun v => v.function = function ∧ v.edge.any (· ∈ edge :: edges))
        (fun _ => false) (fun v => v.function = function ∧ v.edge = some edge)
        (fun v => v.function = function ∧ v.edge.any (· ∈ edges)) (by
          intro v _
          cases hedge : v.edge with
          | none => simp
          | some e =>
              by_cases hfunction : v.function = function
              · by_cases he : e = edge
                · subst he
                  simp [hfunction, hnew]
                · simp [hfunction, he]
              · simp [hfunction])
      rw [List.countP_false, Function.const_apply, Nat.add_zero] at hsplit
      rw [List.map_cons, List.sum_cons, ih hnodup, hsplit, departures]

/-- The edges of a function that lead to a block. -/
def Function.edgesInto (f : Function) (b : BlockId) : List (BlockId × ℕ) :=
  (f.edges f.blocks.length).filter fun e => (f.successors e.1)[e.2]? = some b

theorem Function.mem_edgesInto {f : Function} {b : BlockId} {edge : BlockId × ℕ} :
    edge ∈ f.edgesInto b ↔
      edge.1 < f.blocks.length ∧ (f.successors edge.1)[edge.2]? = some b := by
  simp only [edgesInto, List.mem_filter, mem_edges, decide_eq_true_eq]
  constructor
  · rintro ⟨⟨hlt, -⟩, htarget⟩
    exact ⟨hlt, htarget⟩
  · rintro ⟨hlt, htarget⟩
    exact ⟨⟨hlt, (List.getElem?_eq_some_iff.mp htarget).1⟩, htarget⟩

/-- No edge leads to the entry. -/
theorem Function.IsValid.edgesInto_zero {f : Function} (h : f.IsValid) : f.edgesInto 0 = [] := by
  rw [List.eq_nil_iff_forall_not_mem]
  intro edge hedge
  obtain ⟨hlt, htarget⟩ := mem_edgesInto.mp hedge
  rw [successors_eq (List.getElem?_eq_getElem hlt)] at htarget
  exact (h _ (List.getElem_mem hlt) 0 (List.mem_of_getElem? htarget)).2 rfl

/-- The blocks of an edited function that stand on edges to a block of the original. -/
def Function.onEdgesInto (f g : Function) (b x : BlockId) : Bool :=
  f.blocks.length ≤ x ∧ g.landing f.blocks.length x = b

section

variable {added : Inst → Prop} {q : Program} {f g : Function} {b : BlockId}

theorem Function.Refines.goes (hfg : f.Refines added g) {i : ℕ} (hg : q.functions[i]? = some g) :
    q.Goes i (f.onEdgesInto g b) := by
  intro x block hx hblock
  obtain ⟨g', hg', hblock⟩ := Program.block?_eq_some_iff.mp hblock
  obtain rfl : g = g' := Option.some.inj (hg.symm.trans hg')
  obtain ⟨-, -, dest, -, hterm⟩ := hfg.crossing x block (of_decide_eq_true hx).1 hblock
  rw [hterm]
  exact nofun

/-- Along an edge to a block of the original, a run comes to the block or to one on the edge,
and from the latter to the former. -/
theorem Visit.Fits.into_add_onto {v : Visit} (hv : v.Fits q)
    (hg : q.functions[v.function]? = some g) (hfg : f.Refines added g) (hb : b < f.blocks.length)
    (hentry : b ≠ 0) :
    (if v.edge.any (· ∈ f.edgesInto b) then 1 else 0) +
        (if v.edge.any (f.onEdgesInto g b ·.1) then 1 else 0) =
      (if v.block = b then 1 else 0) + if f.onEdgesInto g b v.block then 1 else 0 := by
  obtain ⟨function, block, edge⟩ := v
  cases edge with
  | none =>
      obtain rfl : block = 0 := hv
      have hlen : f.blocks.length ≠ 0 := Nat.ne_zero_of_lt hb
      simp [Function.onEdgesInto, hentry.symm, hlen]
  | some edge =>
      obtain ⟨b', succ⟩ := edge
      obtain ⟨source, hsource, hsucc⟩ := hv
      obtain ⟨g', hg', hsource⟩ := Program.block?_eq_some_iff.mp hsource
      obtain rfl : g = g' := Option.some.inj (hg.symm.trans hg')
      simp only [Option.any_some, Function.onEdgesInto, Function.mem_edgesInto, decide_eq_true_eq]
      by_cases hb' : b' < f.blocks.length
      · have htarget : (f.successors b')[succ]? = some (g.landing f.blocks.length block) := by
          rw [hfg.landing_successor hb', Function.successors_eq hsource, hsucc]
          rfl
        rw [htarget]
        by_cases hblock : block < f.blocks.length
        · rw [Function.landing_of_lt hblock]
          simp [hb', Nat.not_le.mpr hb', Nat.not_le.mpr hblock]
        · have hne : block ≠ b := by
            rintro rfl
            exact hblock hb
          simp [hb', Nat.not_le.mpr hb', Nat.le_of_not_lt hblock, hne]
      · obtain ⟨hlanding, hdest⟩ := hfg.landing_crossing (Nat.le_of_not_lt hb') hsource hsucc
        simp [hb', Nat.le_of_not_lt hb', hlanding, Nat.not_le.mpr hdest]

end

namespace Program

variable {σ : Type} {added : Inst → Prop} {q : Program} {host : Host σ} {state : σ} {limit : ℕ}
  {args : List String} {m : Machine σ} {records : List Record}

/-- A block other than the entry runs as often as the edges into it are taken. -/
theorem executions_eq_sum (hrun : q.run host state limit args = (m, .ok records)) {i b : ℕ}
    {f g : Function} (hg : q.functions[i]? = some g) (hfg : f.Refines added g)
    (hb : b < f.blocks.length) (hentry : b ≠ 0) :
    executions (q.visits host state limit) i b =
      ((f.edgesInto b).map fun e =>
        departures (q.visits host state limit) i e.1 e.2).sum := by
  have hbalance := begun_eq_left hrun (hfg.goes (b := b) hg)
  have hnodup : (f.edgesInto b).Nodup := (f.nodup_edges f.blocks.length).filter _
  have hsplit := countP_add_eq (q.visits host state limit)
    (fun v => v.function = i ∧ v.edge.any (· ∈ f.edgesInto b))
    (fun v => v.function = i ∧ v.edge.any (f.onEdgesInto g b ·.1))
    (fun v => v.function = i ∧ v.block = b)
    (fun v => v.function = i ∧ f.onEdgesInto g b v.block) (by
      intro v hv
      by_cases hi : v.function = i
      · subst hi
        simpa using (visits_fit hrun v hv).into_add_onto hg hfg hb hentry
      · simp [hi])
  rw [sum_departures _ _ hnodup]
  simp only [begun, left] at hbalance
  simp only [executions]
  omega

end Program

end FlowProfile
