import FlowProfile.Proofs.Instrument.Splitting

/-!
# Blocks on critical edges

Counting the edges of a function puts a block onto each critical edge and onto no other, in the
order of the edges. To split an edge changes nothing about whether another one is critical. So the
edges that are split are those that were critical at first, though the graph changes on the way, and
none is critical in the end.
-/

namespace FlowProfile.Function

variable {f g mid : Function} {counters : String} {slot : ℕ}

/-! ### Splitting one edge -/

section

variable {b dest : BlockId} {succ : ℕ} {source target : Block}

/-- A split edge is not critical, and any other one is as critical as before. -/
theorem isCritical_split (hf : ¬f.Dangles) (hs : f.blocks[b]? = some source)
    (hd : source.terminator.successors[succ]? = some dest)
    {e : BlockId × ℕ} (he : e.1 < f.blocks.length) :
    (f.split b succ (crossing source target dest)).isCritical e.1 e.2 =
      (f.isCritical e.1 e.2 && e ≠ (b, succ)) := by
  by_cases heq : e = (b, succ)
  · subst heq
    have hedge : f.HasEdge (b, succ) := .of_getElem? (by rw [successors_eq hs, hd])
    simp [isCritical, getElem?_successors_split_self hedge, predecessorCount_split hs hd,
      predecessorCount_eq_zero hf le_rfl]
  · have htarget : ((f.split b succ (crossing source target dest)).successors e.1)[e.2]? =
        (f.successors e.1)[e.2]? := getElem?_successors_split he heq
    rw [isCritical, isCritical, htarget, length_successors_split he]
    cases hdest : (f.successors e.1)[e.2]? with
    | none => rfl
    | some old =>
        have hne : f.blocks.length ≠ old := (successor_lt hf hdest).ne'
        simp [predecessorCount_split hs hd, hne, heq]

end

/-! ### Splitting the edges of a list -/

/-- The critical ones among some edges. -/
def criticalAmong (f : Function) (edges : List (BlockId × ℕ)) : List (BlockId × ℕ) :=
  edges.filter fun e => f.isCritical e.1 e.2

/-- Each critical edge of a list leads through a new block, of which the first belongs to the
first edge. Every other edge leads where it led. -/
structure Separated (f : Function) (edges : List (BlockId × ℕ)) (g : Function) : Prop where
  length : g.blocks.length = f.blocks.length + (f.criticalAmong edges).length
  split : ∀ i e dest, (f.criticalAmong edges)[i]? = some e →
    (f.successors e.1)[e.2]? = some dest →
    (g.successors e.1)[e.2]? = some (f.blocks.length + i) ∧
      g.successors (f.blocks.length + i) = [dest]
  kept : ∀ e : BlockId × ℕ, e.1 < f.blocks.length → e ∉ f.criticalAmong edges →
    (g.successors e.1)[e.2]? = (f.successors e.1)[e.2]?
  critical : ∀ e, f.HasEdge e →
    g.isCritical e.1 e.2 = (f.isCritical e.1 e.2 && e ∉ edges)

theorem criticalAmong_congr {edges : List (BlockId × ℕ)}
    (h : ∀ e ∈ edges, g.isCritical e.1 e.2 = f.isCritical e.1 e.2) :
    g.criticalAmong edges = f.criticalAmong edges := List.filter_congr h

theorem criticalAmong_cons_of_isCritical {edge : BlockId × ℕ} {edges : List (BlockId × ℕ)}
    (h : f.isCritical edge.1 edge.2 = true) :
    f.criticalAmong (edge :: edges) = edge :: f.criticalAmong edges := List.filter_cons_of_pos h

theorem criticalAmong_cons_of_not {edge : BlockId × ℕ} {edges : List (BlockId × ℕ)}
    (h : f.isCritical edge.1 edge.2 = false) :
    f.criticalAmong (edge :: edges) = f.criticalAmong edges :=
  List.filter_cons_of_neg (by simp [h])

/-- A split leaves the other edges of a list as critical as they were. -/
theorem criticalAmong_split {b dest : BlockId} {succ : ℕ} {source target : Block}
    {edges : List (BlockId × ℕ)} (hf : ¬f.Dangles) (hs : f.blocks[b]? = some source)
    (hd : source.terminator.successors[succ]? = some dest) (hnew : (b, succ) ∉ edges)
    (hedges : ∀ e ∈ edges, f.HasEdge e) :
    (f.split b succ (crossing source target dest)).criticalAmong edges = f.criticalAmong edges :=
  criticalAmong_congr fun e he => by
    have hne : e ≠ (b, succ) := fun heq => hnew (heq ▸ he)
    simp [isCritical_split hf hs hd (hedges e he).lt, hne]

theorem Separated.nil (f : Function) : f.Separated [] f where
  length := rfl
  split i e dest he := by simp [criticalAmong] at he
  kept _ _ _ := rfl
  critical _ _ := by simp

/-- Only terminators matter. -/
theorem Separated.congr {edges : List (BlockId × ℕ)} (h : mid.Separated edges g)
    (hterm : mid.terminators = f.terminators) : f.Separated edges g := by
  have hamong : mid.criticalAmong edges = f.criticalAmong edges :=
    criticalAmong_congr fun e _ => isCritical_congr hterm e.1 e.2
  have hlen := length_blocks_congr hterm
  have hsucc := successors_congr hterm
  refine ⟨?_, ?_, ?_, ?_⟩
  · rw [h.length, hlen, hamong]
  · simpa only [hamong, hlen, hsucc] using h.split
  · simpa only [hamong, hlen, hsucc] using h.kept
  · intro e he
    have hedge : mid.HasEdge e := by
      unfold HasEdge
      rw [hsucc]
      exact he
    rw [h.critical e hedge, isCritical_congr hterm]

/-- An edge that is not critical is left alone. -/
theorem Separated.cons_of_not {edge : BlockId × ℕ} {edges : List (BlockId × ℕ)}
    (h : f.Separated edges g) (hedge : f.isCritical edge.1 edge.2 = false) :
    f.Separated (edge :: edges) g := by
  have hamong : f.criticalAmong (edge :: edges) = f.criticalAmong edges :=
    criticalAmong_cons_of_not hedge
  refine ⟨?_, ?_, ?_, ?_⟩
  · rw [hamong, h.length]
  · rw [hamong]
    exact h.split
  · rw [hamong]
    exact h.kept
  · intro e he
    rw [h.critical e he]
    by_cases heq : e = edge
    · simp [heq, hedge]
    · simp [heq]

/-- A critical edge gets the first of the new blocks. -/
theorem Separated.cons_split {b dest : BlockId} {succ : ℕ} {source target : Block}
    {edges : List (BlockId × ℕ)} (hf : ¬f.Dangles) (hs : f.blocks[b]? = some source)
    (hd : source.terminator.successors[succ]? = some dest) (hc : f.isCritical b succ = true)
    (hnodup : ((b, succ) :: edges).Nodup) (hedges : ∀ e ∈ edges, f.HasEdge e)
    (h : (f.split b succ (crossing source target dest)).Separated edges g) :
    f.Separated ((b, succ) :: edges) g := by
  obtain ⟨hnew, -⟩ := List.nodup_cons.mp hnodup
  have hedge : f.HasEdge (b, succ) := HasEdge.of_isCritical hc
  have hne : ∀ e ∈ edges, e ≠ (b, succ) := fun e he heq => hnew (heq ▸ he)
  have hamong : (f.split b succ (crossing source target dest)).criticalAmong edges =
      f.criticalAmong edges := criticalAmong_split hf hs hd hnew hedges
  have hcons : f.criticalAmong ((b, succ) :: edges) = (b, succ) :: f.criticalAmong edges :=
    criticalAmong_cons_of_isCritical hc
  have hmem : ∀ e ∈ f.criticalAmong edges, e ∈ edges := fun e he => (List.mem_filter.mp he).1
  have hkept := h.kept
  simp only [hamong, length_split] at hkept
  refine ⟨?_, ?_, ?_, ?_⟩
  · rw [h.length, length_split, hamong, hcons, List.length_cons]
    omega
  · intro i e dest' hi hdest
    rw [hcons] at hi
    cases i with
    | zero =>
        obtain rfl : (b, succ) = e := by simpa using hi
        obtain rfl : dest = dest' := by
          simpa [successors_eq hs, hd] using hdest
        refine ⟨?_, List.ext_getElem? fun j => ?_⟩
        · have htarget := hkept (b, succ) (Nat.lt_succ_of_lt hedge.lt) fun hin => hnew (hmem _ hin)
          rw [htarget, getElem?_successors_split_self hedge]
          rfl
        · have hfresh : ((f.blocks.length, j) : BlockId × ℕ) ∉ f.criticalAmong edges := by
            intro hin
            exact absurd (hedges _ (hmem _ hin)).lt (lt_irrefl _)
          rw [Nat.add_zero, hkept (f.blocks.length, j) (Nat.lt_succ_self _) hfresh,
            successors_split, if_pos rfl]
    | succ i =>
        rw [List.getElem?_cons_succ] at hi
        have hin := hmem e (List.mem_of_getElem? hi)
        have hother : ((f.split b succ (crossing source target dest)).successors e.1)[e.2]? =
            (f.successors e.1)[e.2]? := getElem?_successors_split (hedges e hin).lt (hne e hin)
        have hsplit := h.split i e dest' (by rwa [hamong]) (by rwa [hother])
        rwa [length_split, Nat.add_assoc, Nat.add_comm 1] at hsplit
  · intro e he hnot
    rw [hcons, List.mem_cons, not_or] at hnot
    rw [hkept e (Nat.lt_succ_of_lt he) hnot.2, getElem?_successors_split he hnot.1]
  · intro e he
    rw [h.critical e he.split, isCritical_split hf hs hd he.lt]
    by_cases heq : e = (b, succ)
    · simp [heq]
    · simp [heq]

theorem Separated.congr_right {edges : List (BlockId × ℕ)} (h : f.Separated edges mid)
    (hterm : g.terminators = mid.terminators) : f.Separated edges g := by
  have hlen := length_blocks_congr hterm
  have hsucc := successors_congr hterm
  refine ⟨?_, ?_, ?_, ?_⟩
  · rw [hlen, h.length]
  · simpa only [hsucc] using h.split
  · simpa only [hsucc] using h.kept
  · intro e he
    rw [isCritical_congr hterm, h.critical e he]

/-! ### Counting the edges of a function -/

theorem countEdgesFrom_separated {edges : List (BlockId × ℕ)} (hf : f.IsValid)
    (hnodup : edges.Nodup) (hedges : ∀ e ∈ edges, f.HasEdge e)
    (h : f.countEdgesFrom counters edges slot = .ok g) : f.Separated edges g := by
  induction edges generalizing f slot with
  | nil =>
      obtain rfl : f = g := by simpa [countEdgesFrom] using h
      exact .nil f
  | cons edge edges ih =>
      obtain ⟨b, succ⟩ := edge
      simp only [countEdgesFrom, Outcome.bind_eq_ok_iff] at h
      obtain ⟨mid, hmid, h⟩ := h
      have htail : ∀ e ∈ edges, f.HasEdge e := fun e he => hedges e (List.mem_cons_of_mem _ he)
      have hstep := countEdge_step hf (hedges _ List.mem_cons_self) hmid
      have hrest := ih hstep.valid (List.nodup_cons.mp hnodup).2
        (fun e he => hstep.edges e (htail e he)) h
      obtain ⟨source, hs, ⟨hc, hterm⟩ | ⟨dest, target, hd, hc, hterm⟩⟩ :=
        countEdge_terminators hmid
      · exact (hrest.congr hterm).cons_of_not hc
      · exact .cons_split hf.not_dangles hs hd hc hnodup htail (hrest.congr hterm)

theorem countEdges_separated (hf : f.IsValid)
    (h : f.countEdges counters f.blocks.length slot = .ok g) :
    f.Separated (f.edges f.blocks.length) g := by
  simp only [countEdges, Outcome.bind_eq_ok_iff] at h
  obtain ⟨mid, hmid, h⟩ := h
  obtain ⟨block, hb, hi, rfl⟩ := insertAt_eq_ok_iff.mp hmid
  have hterm : (f.insert 0 0 (.increment counters slot)).terminators = f.terminators :=
    terminators_insert ..
  exact (countEdgesFrom_separated ((isValid_congr hterm).mpr hf) (nodup_edges f _)
    (fun e he => (mem_edges.mp he).2.insert) h).congr hterm

/-- No edge is critical once all critical ones are split. -/
theorem Separated.isCritical_eq_false (h : f.Separated (f.edges f.blocks.length) g) (b : BlockId)
    (succ : ℕ) : g.isCritical b succ = false := by
  have hnone : (g.successors b)[succ]? = none → g.isCritical b succ = false := by
    intro hnone
    rw [isCritical, hnone]
  by_cases hown : b < f.blocks.length
  · by_cases hedge : f.HasEdge (b, succ)
    · rw [h.critical (b, succ) hedge, decide_eq_false (not_not.mpr (mem_edges.mpr ⟨hown, hedge⟩)),
        Bool.and_false]
    · have hnot : (b, succ) ∉ f.criticalAmong (f.edges f.blocks.length) :=
        fun hin => hedge (mem_edges.mp (List.mem_filter.mp hin).1).2
      refine hnone ?_
      rw [h.kept (b, succ) hown hnot]
      exact List.getElem?_eq_none (Nat.le_of_not_lt hedge)
  · by_cases hfresh : b < g.blocks.length
    · obtain ⟨i, rfl⟩ := Nat.exists_eq_add_of_le (Nat.le_of_not_lt hown)
      rw [h.length, Nat.add_lt_add_iff_left] at hfresh
      have hi := List.getElem?_eq_getElem hfresh
      have hedge := (mem_edges.mp (List.mem_filter.mp (List.mem_of_getElem? hi)).1).2
      have hsucc := (h.split i _ _ hi (List.getElem?_eq_getElem hedge)).2
      rw [isCritical, hsucc]
      split
      · simp
      · rfl
    · refine hnone ?_
      simp [successors, List.getElem?_eq_none (Nat.le_of_not_lt hfresh)]

end FlowProfile.Function
