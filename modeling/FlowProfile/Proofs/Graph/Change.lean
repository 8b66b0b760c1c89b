import FlowProfile.Graph.Edit
import FlowProfile.Graph.Validate
import FlowProfile.Proofs.Outcome
import FlowProfile.Proofs.Sums

/-!
# Changes of a graph

Instrumentation changes a function in two ways only: it inserts an instruction into a
block, and it splits a critical edge. What both keep is proved once for each, and then for
all that can be made of them.
-/

namespace FlowProfile

namespace Function

/-! ### Insertions -/

def insert (f : Function) (b : BlockId) (index : ℕ) (inst : Inst) : Function :=
  f.modifyBlock b fun block => { block with insts := block.insts.insertIdx index inst }

theorem block_eq_ok_iff {f : Function} {b : BlockId} {block : Block} :
    f.block b = .ok block ↔ f.blocks[b]? = some block := Outcome.get_eq_ok_iff

theorem insertAt_eq_ok_iff {f g : Function} {b : BlockId} {index : ℕ} {inst : Inst} :
    f.insertAt b index inst = .ok g ↔
      ∃ block, f.blocks[b]? = some block ∧ index ≤ block.insts.length ∧
        g = f.insert b index inst := by
  simp only [insertAt, Outcome.bind_eq_ok_iff, block_eq_ok_iff]
  refine exists_congr fun block => and_congr_right fun _ => ?_
  by_cases h : index ≤ block.insts.length
  · rw [if_pos h, Outcome.pure_eq_ok_iff]
    exact ⟨fun heq => ⟨h, heq.symm⟩, fun heq => heq.2.symm⟩
  · simp [h]

theorem insertAtEnd_eq_ok_iff {f g : Function} {b : BlockId} {inst : Inst} :
    f.insertAtEnd b inst = .ok g ↔
      ∃ block, f.blocks[b]? = some block ∧ g = f.insert b block.insts.length inst := by
  simp only [insertAtEnd, Outcome.bind_eq_ok_iff, block_eq_ok_iff, insertAt_eq_ok_iff]
  constructor
  · rintro ⟨block, hb, _, _, _, rfl⟩
    exact ⟨block, hb, rfl⟩
  · rintro ⟨block, hb, rfl⟩
    exact ⟨block, hb, block, hb, le_rfl, rfl⟩

theorem getElem?_insert (f : Function) (b : BlockId) (index : ℕ) (inst : Inst) (x : BlockId) :
    (f.insert b index inst).blocks[x]? = (f.blocks[x]?).map fun block =>
      if b = x then { block with insts := block.insts.insertIdx index inst } else block := by
  simp only [insert, modifyBlock, List.getElem?_modify]
  split <;> simp_all

@[simp] theorem length_insert (f : Function) (b : BlockId) (index : ℕ) (inst : Inst) :
    (f.insert b index inst).blocks.length = f.blocks.length := by
  simp [insert, modifyBlock]

/-! ### Terminators -/

def terminators (f : Function) : List Terminator := f.blocks.map (·.terminator)

@[simp] theorem terminators_insert (f : Function) (b : BlockId) (index : ℕ) (inst : Inst) :
    (f.insert b index inst).terminators = f.terminators := by
  apply List.ext_getElem?
  intro x
  simp only [terminators, List.getElem?_map, getElem?_insert, Option.map_map]
  cases f.blocks[x]? with
  | none => rfl
  | some block =>
      by_cases h : b = x <;> simp [h]

theorem predecessorCount_eq (f : Function) (x : BlockId) :
    f.predecessorCount x = (f.terminators.map (·.successors.count x)).sum := by
  simp [predecessorCount, terminators, Function.comp_def]

theorem isValid_iff (f : Function) :
    f.IsValid ↔ ∀ t ∈ f.terminators, ∀ dest ∈ t.successors,
      dest < f.terminators.length ∧ dest ≠ 0 := by
  simp [IsValid, terminators]

theorem predecessorCount_congr {f g : Function} (h : g.terminators = f.terminators)
    (x : BlockId) : g.predecessorCount x = f.predecessorCount x := by
  rw [predecessorCount_eq, predecessorCount_eq, h]

theorem isValid_congr {f g : Function} (h : g.terminators = f.terminators) :
    g.IsValid ↔ f.IsValid := by
  rw [isValid_iff, isValid_iff, h]

theorem predecessorCount_pos {f : Function} {b : BlockId} {source : Block} {dest : BlockId}
    (hs : f.blocks[b]? = some source) (hd : dest ∈ source.terminator.successors) :
    0 < f.predecessorCount dest := by
  have hle : source.terminator.successors.count dest ≤ f.predecessorCount dest := by
    apply List.le_sum_of_mem
    exact List.mem_map.mpr ⟨source, List.mem_of_getElem? hs, rfl⟩
  exact (List.count_pos_iff.mpr hd).trans_le hle

/-- An edge of a function that ends at none of its blocks. -/
def Dangles (f : Function) : Prop :=
  ∃ block ∈ f.blocks, ∃ dest ∈ block.terminator.successors, f.blocks.length ≤ dest

instance (f : Function) : Decidable f.Dangles :=
  inferInstanceAs (Decidable (∃ block ∈ f.blocks, ∃ dest ∈ block.terminator.successors, _))

theorem not_dangles_iff {f : Function} : ¬f.Dangles ↔
    ∀ block ∈ f.blocks, ∀ dest ∈ block.terminator.successors, dest < f.blocks.length := by
  simp [Dangles]

theorem IsValid.not_dangles {f : Function} (hf : f.IsValid) : ¬f.Dangles :=
  not_dangles_iff.mpr fun block hb dest hdest => (hf block hb dest hdest).1

theorem predecessorCount_eq_zero {f : Function} (hf : ¬f.Dangles) {x : BlockId}
    (hx : f.blocks.length ≤ x) : f.predecessorCount x = 0 := by
  unfold predecessorCount
  apply List.sum_eq_zero
  intro n hn
  obtain ⟨block, hb, rfl⟩ := List.mem_map.mp hn
  apply List.count_eq_zero.mpr
  intro hmem
  exact hf ⟨block, hb, x, hmem, hx⟩

/-! ### Splits -/

@[simp] theorem insts_crossing (source target : Block) (dest : BlockId) :
    (crossing source target dest).insts = [] := rfl

@[simp] theorem terminator_crossing (source target : Block) (dest : BlockId) :
    (crossing source target dest).terminator = .br dest := rfl

theorem getElem?_split (f : Function) (b : BlockId) (succ : ℕ) (c : Block) (x : BlockId) :
    (f.split b succ c).blocks[x]? =
      if x = f.blocks.length then some c
      else (f.blocks[x]?).map fun block =>
        if b = x then
          { block with terminator := block.terminator.redirect succ f.blocks.length }
        else block := by
  simp only [split]
  rcases Nat.lt_trichotomy x f.blocks.length with h | h | h
  · rw [List.getElem?_append_left (by simpa using h), List.getElem?_modify, if_neg h.ne]
    split <;> simp_all
  · subst h
    simp
  · rw [if_neg h.ne', List.getElem?_eq_none (by simpa using h),
      List.getElem?_eq_none (Nat.le_of_lt h)]
    rfl

@[simp] theorem length_split (f : Function) (b : BlockId) (succ : ℕ) (c : Block) :
    (f.split b succ c).blocks.length = f.blocks.length + 1 := by
  simp [split]

end Function

namespace Function

/-- A block of its own on an edge adds no predecessor but to the new block. -/
theorem predecessorCount_split {f : Function} {b : BlockId} {succ : ℕ} {source target : Block}
    {dest : BlockId} (hs : f.blocks[b]? = some source)
    (hd : source.terminator.successors[succ]? = some dest) (x : BlockId) :
    (f.split b succ (crossing source target dest)).predecessorCount x =
      f.predecessorCount x + if f.blocks.length = x then 1 else 0 := by
  have hblocks := sum_map_modify f.blocks hs
    (fun block => { block with terminator := block.terminator.redirect succ f.blocks.length })
    (fun block => block.terminator.successors.count x)
  have hcount := count_set_add hd f.blocks.length x
  simp only [Terminator.successors_redirect] at hblocks
  have hcross : (Terminator.br dest).successors.count x = if dest = x then 1 else 0 := by
    simp [Terminator.successors, List.count_singleton]
  simp only [split, predecessorCount, List.map_append, List.map_cons, List.map_nil,
    List.sum_append, List.sum_cons, List.sum_nil, terminator_crossing, hcross]
  omega

/-- An edge of the split function leads to the new block, or where an edge led before. -/
theorem exists_successor_of_split {f : Function} {b : BlockId} {succ : ℕ} {source target : Block}
    {dest : BlockId} (hs : f.blocks[b]? = some source)
    (hd : source.terminator.successors[succ]? = some dest) {block : Block}
    (hb : block ∈ (f.split b succ (crossing source target dest)).blocks) {x : BlockId}
    (hx : x ∈ block.terminator.successors) :
    x = f.blocks.length ∨ ∃ old ∈ f.blocks, x ∈ old.terminator.successors := by
  obtain ⟨i, hi⟩ := List.mem_iff_getElem?.mp hb
  rw [getElem?_split] at hi
  split at hi
  · obtain rfl := Option.some.inj hi
    obtain rfl : x = dest := by simpa [Terminator.successors] using hx
    exact .inr ⟨source, List.mem_of_getElem? hs, List.mem_of_getElem? hd⟩
  · obtain ⟨old, hold, rfl⟩ := Option.map_eq_some_iff.mp hi
    have hmem := List.mem_of_getElem? hold
    by_cases hbi : b = i
    · simp only [hbi, if_true, Terminator.successors_redirect] at hx
      rcases List.mem_or_eq_of_mem_set hx with hx | rfl
      · exact .inr ⟨old, hmem, hx⟩
      · exact .inl rfl
    · simp only [hbi, if_false] at hx
      exact .inr ⟨old, hmem, hx⟩

theorem isValid_split {f : Function} (hf : f.IsValid) {b : BlockId} {succ : ℕ}
    {source target : Block} {dest : BlockId} (hs : f.blocks[b]? = some source)
    (hd : source.terminator.successors[succ]? = some dest) :
    (f.split b succ (crossing source target dest)).IsValid := by
  have hlen : 0 < f.blocks.length :=
    Nat.lt_of_le_of_lt (Nat.zero_le b) (List.getElem?_eq_some_iff.mp hs).1
  intro block hb x hx
  rw [length_split]
  rcases exists_successor_of_split hs hd hb hx with rfl | ⟨old, hold, hx⟩
  · exact ⟨Nat.lt_succ_self _, hlen.ne'⟩
  · have h := hf old hold x hx
    exact ⟨Nat.lt_succ_of_lt h.1, h.2⟩

theorem not_dangles_split {f : Function} (hf : ¬f.Dangles) {b : BlockId} {succ : ℕ}
    {source target : Block} {dest : BlockId} (hs : f.blocks[b]? = some source)
    (hd : source.terminator.successors[succ]? = some dest) :
    ¬(f.split b succ (crossing source target dest)).Dangles := by
  rw [not_dangles_iff] at hf ⊢
  intro block hb x hx
  rw [length_split]
  rcases exists_successor_of_split hs hd hb hx with rfl | ⟨old, hold, hx⟩
  · exact Nat.lt_succ_self _
  · exact Nat.lt_succ_of_lt (hf old hold x hx)

/-! ### Successors -/

def HasEdge (f : Function) (edge : BlockId × ℕ) : Prop :=
  edge.2 < (f.successors edge.1).length

theorem successors_eq {f : Function} {b : BlockId} {block : Block} (h : f.blocks[b]? = some block) :
    f.successors b = block.terminator.successors := by
  simp [successors, h]

@[simp] theorem successors_insert (f : Function) (b : BlockId) (index : ℕ) (inst : Inst)
    (x : BlockId) : (f.insert b index inst).successors x = f.successors x := by
  unfold successors
  rw [getElem?_insert]
  cases f.blocks[x]? with
  | none => rfl
  | some block => by_cases h : b = x <;> simp [h]

theorem successors_split {f : Function} {b : BlockId} {succ : ℕ} {source target : Block}
    {dest : BlockId} (x : BlockId) :
    (f.split b succ (crossing source target dest)).successors x =
      if x = f.blocks.length then [dest]
      else if b = x then (f.successors x).set succ f.blocks.length
      else f.successors x := by
  unfold successors
  rw [getElem?_split]
  by_cases hx : x = f.blocks.length
  · simp [hx, Terminator.successors]
  · rw [if_neg hx, if_neg hx]
    cases f.blocks[x]? with
    | none => simp
    | some block =>
        by_cases hb : b = x
        · simp [hb]
        · simp [hb]

theorem HasEdge.lt {f : Function} {edge : BlockId × ℕ} (h : f.HasEdge edge) :
    edge.1 < f.blocks.length := by
  by_contra hge
  have hnone := List.getElem?_eq_none (Nat.le_of_not_lt hge)
  simp [HasEdge, successors, hnone] at h

theorem HasEdge.of_getElem? {f : Function} {b dest : BlockId} {succ : ℕ}
    (h : (f.successors b)[succ]? = some dest) : f.HasEdge (b, succ) :=
  (List.getElem?_eq_some_iff.mp h).1

theorem HasEdge.of_isCritical {f : Function} {b : BlockId} {succ : ℕ}
    (h : f.isCritical b succ = true) : f.HasEdge (b, succ) := by
  unfold isCritical at h
  split at h
  · rename_i dest hd
    exact .of_getElem? hd
  · cases h

theorem successor_lt {f : Function} (hf : ¬f.Dangles) {b dest : BlockId} {succ : ℕ}
    (h : (f.successors b)[succ]? = some dest) : dest < f.blocks.length := by
  have hb : b < f.blocks.length := (HasEdge.of_getElem? h).lt
  rw [successors_eq (List.getElem?_eq_getElem hb)] at h
  exact not_dangles_iff.mp hf _ (List.getElem_mem hb) dest (List.mem_of_getElem? h)

theorem HasEdge.insert {f : Function} {b : BlockId} {index : ℕ} {inst : Inst}
    {edge : BlockId × ℕ} (h : f.HasEdge edge) : (f.insert b index inst).HasEdge edge := by
  simpa [HasEdge] using h

section

variable {f : Function} {b dest : BlockId} {succ : ℕ} {source target : Block}

theorem length_successors_split {x : BlockId} (hx : x < f.blocks.length) :
    ((f.split b succ (crossing source target dest)).successors x).length =
      (f.successors x).length := by
  rw [successors_split, if_neg hx.ne]
  split
  · exact List.length_set
  · rfl

/-- Every other edge leads where it led. -/
theorem getElem?_successors_split {e : BlockId × ℕ} (he : e.1 < f.blocks.length)
    (hne : e ≠ (b, succ)) :
    ((f.split b succ (crossing source target dest)).successors e.1)[e.2]? =
      (f.successors e.1)[e.2]? := by
  rw [successors_split, if_neg he.ne]
  split
  case isTrue hb => exact List.getElem?_set_ne fun hsucc => hne (Prod.ext hb.symm hsucc.symm)
  case isFalse => rfl

/-- The split edge leads to the new block. -/
theorem getElem?_successors_split_self (hedge : f.HasEdge (b, succ)) :
    ((f.split b succ (crossing source target dest)).successors b)[succ]? =
      some f.blocks.length := by
  have hb : b ≠ f.blocks.length := hedge.lt.ne
  rw [successors_split, if_neg hb, if_pos rfl, List.getElem?_set_self hedge]

theorem HasEdge.split {edge : BlockId × ℕ} (h : f.HasEdge edge) :
    (f.split b succ (crossing source target dest)).HasEdge edge := by
  rw [HasEdge, length_successors_split h.lt]
  exact h

end

end Function

end FlowProfile
