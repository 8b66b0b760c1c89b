import FlowProfile.Proofs.Graph.Change

/-!
# Edited functions

What a function becomes by insertions, and by splits where these are allowed. The blocks
that it had keep their numbers, their own instructions and their edges, and all that is
new are instructions of the given kind and blocks on edges.
-/

namespace FlowProfile

namespace Function

/-- What can be made of a function by inserting instructions and splitting critical edges. -/
inductive Edited (splitting : Prop) (added : Inst → Prop) (f : Function) : Function → Prop where
  | refl : Edited splitting added f f
  | insert {g : Function} {b : BlockId} {block : Block} {index : ℕ} {inst : Inst}
      (h : Edited splitting added f g) (hb : g.blocks[b]? = some block)
      (hi : index ≤ block.insts.length) (ha : added inst) :
      Edited splitting added f (g.insert b index inst)
  | split {g : Function} {b dest : BlockId} {succ : ℕ} {source target : Block}
      (h : Edited splitting added f g) (hsplit : splitting) (hs : g.blocks[b]? = some source)
      (hd : source.terminator.successors[succ]? = some dest) (ht : g.blocks[dest]? = some target)
      (hout : 1 < source.terminator.successors.length) (hin : 1 < g.predecessorCount dest) :
      Edited splitting added f (g.split b succ (crossing source target dest))

/-- How many such instructions a block has. -/
def tally (f : Function) (counted : Inst → Bool) (x : BlockId) : ℕ :=
  ((f.blocks[x]?).map (·.insts.countP counted)).getD 0

theorem splitCritical_cases {f g : Function} {b : BlockId} {succ : ℕ} {fresh : Option BlockId}
    (h : f.splitCritical b succ = .ok (g, fresh)) :
    ∃ source, f.blocks[b]? = some source ∧
      ((¬f.isCritical b succ ∧ g = f) ∨
        ∃ dest target, source.terminator.successors[succ]? = some dest ∧
          f.blocks[dest]? = some target ∧ 1 < source.terminator.successors.length ∧
          1 < f.predecessorCount dest ∧ g = f.split b succ (crossing source target dest)) := by
  simp only [splitCritical, Outcome.bind_eq_ok_iff, block_eq_ok_iff] at h
  obtain ⟨source, hs, h⟩ := h
  refine ⟨source, hs, ?_⟩
  by_cases hc : f.isCritical b succ
  · rw [if_pos hc] at h
    cases hd : source.terminator.successors[succ]? with
    | none => simp [isCritical, successors, hs, hd] at hc
    | some dest =>
        simp only [hd, Outcome.bind_eq_ok_iff, block_eq_ok_iff, Outcome.pure_eq_ok_iff,
          Prod.mk.injEq] at h
        obtain ⟨target, ht, rfl, -⟩ := h
        simp only [isCritical, successors, hs, hd, Bool.and_eq_true, decide_eq_true_eq] at hc
        exact .inr ⟨dest, target, rfl, ht, hc.1, hc.2, rfl⟩
  · rw [if_neg hc, Outcome.pure_eq_ok_iff, Prod.mk.injEq] at h
    exact .inl ⟨hc, h.1.symm⟩

/-- An edge that is not critical is not split. -/
theorem splitCritical_of_not {f : Function} {b : BlockId} {succ : ℕ} (hb : b < f.blocks.length)
    (hc : f.isCritical b succ = false) : f.splitCritical b succ = .ok (f, none) := by
  rw [splitCritical, block_eq_ok_iff.mpr (List.getElem?_eq_getElem hb), Outcome.ok_bind, hc]
  rfl

/-- A critical edge is split if it ends at a block. -/
theorem splitCritical_of_isCritical {f : Function} (hf : ¬f.Dangles) {b : BlockId} {succ : ℕ}
    (hc : f.isCritical b succ = true) :
    ∃ source target dest, f.blocks[b]? = some source ∧
      source.terminator.successors[succ]? = some dest ∧
      f.splitCritical b succ =
        .ok (f.split b succ (crossing source target dest), some f.blocks.length) := by
  have hedge : f.HasEdge (b, succ) := .of_isCritical hc
  have hb : b < f.blocks.length := hedge.lt
  have hs := List.getElem?_eq_getElem hb
  obtain ⟨dest, hd⟩ : ∃ dest, (f.successors b)[succ]? = some dest :=
    ⟨_, List.getElem?_eq_getElem hedge⟩
  have hdest : dest < f.blocks.length := successor_lt hf hd
  have ht := List.getElem?_eq_getElem hdest
  rw [successors_eq hs] at hd
  refine ⟨f.blocks[b], f.blocks[dest], dest, hs, hd, ?_⟩
  rw [splitCritical, block_eq_ok_iff.mpr hs, Outcome.ok_bind, if_pos hc]
  simp only [hd, block_eq_ok_iff.mpr ht, Outcome.ok_bind]
  rfl

namespace Edited

variable {splitting splitting' : Prop} {added added' : Inst → Prop} {f g h : Function}

theorem trans (hfg : Edited splitting added f g) (hgh : Edited splitting added g h) :
    Edited splitting added f h := by
  induction hgh with
  | refl => exact hfg
  | insert _ hb hi ha ih => exact ih.insert hb hi ha
  | split _ hsplit hs hd ht hout hin ih => exact ih.split hsplit hs hd ht hout hin

theorem mono (hsplit : splitting → splitting') (hadd : ∀ inst, added inst → added' inst)
    (hfg : Edited splitting added f g) : Edited splitting' added' f g := by
  induction hfg with
  | refl => exact .refl
  | insert _ hb hi ha ih => exact ih.insert hb hi (hadd _ ha)
  | split _ hs hb hd ht hout hin ih => exact ih.split (hsplit hs) hb hd ht hout hin

theorem insertAt {b : BlockId} {index : ℕ} {inst : Inst} (ha : added inst)
    (h : f.insertAt b index inst = .ok g) : Edited splitting added f g := by
  obtain ⟨block, hb, hi, rfl⟩ := insertAt_eq_ok_iff.mp h
  exact refl.insert hb hi ha

theorem insertAtEnd {b : BlockId} {inst : Inst} (ha : added inst)
    (h : f.insertAtEnd b inst = .ok g) : Edited splitting added f g := by
  obtain ⟨block, hb, rfl⟩ := insertAtEnd_eq_ok_iff.mp h
  exact refl.insert hb le_rfl ha

theorem splitCritical {b : BlockId} {succ : ℕ} {fresh : Option BlockId}
    (h : f.splitCritical b succ = .ok (g, fresh)) : Edited True added f g := by
  obtain ⟨source, hs, ⟨-, rfl⟩ | ⟨dest, target, hd, ht, hout, hin, rfl⟩⟩ := splitCritical_cases h
  · exact .refl
  · exact refl.split trivial hs hd ht hout hin

theorem name_eq (h : Edited splitting added f g) : g.name = f.name := by
  induction h with
  | refl => rfl
  | insert _ _ _ _ ih => exact ih
  | split _ _ _ _ _ _ _ ih => exact ih

theorem length_le (h : Edited splitting added f g) : f.blocks.length ≤ g.blocks.length := by
  induction h with
  | refl => exact le_rfl
  | insert _ _ _ _ ih => simpa using ih
  | split _ _ _ _ _ _ _ ih =>
      rw [length_split]
      exact Nat.le_succ_of_le ih

theorem isDeclaration_eq (h : Edited splitting added f g) :
    g.isDeclaration = f.isDeclaration := by
  cases hf : f.isDeclaration with
  | false =>
      have hlen := h.length_le
      simp only [isDeclaration, List.isEmpty_eq_false_iff, ← List.length_pos_iff] at hf ⊢
      exact Nat.lt_of_lt_of_le hf hlen
  | true =>
      -- a declaration has no block that an edit could be made at
      induction h with
      | refl => exact hf
      | insert _ hb _ _ ih => simp [List.isEmpty_iff.mp ih] at hb
      | split _ _ hs _ _ _ _ ih => simp [List.isEmpty_iff.mp ih] at hs

theorem isValid (h : Edited splitting added f g) (hf : f.IsValid) : g.IsValid := by
  induction h with
  | refl => exact hf
  | insert _ _ _ _ ih => exact (isValid_congr (terminators_insert _ _ _ _)).mpr ih
  | split _ _ hs hd _ _ _ ih => exact isValid_split ih hs hd

theorem terminators_eq (h : Edited False added f g) : g.terminators = f.terminators := by
  induction h with
  | refl => rfl
  | insert _ _ _ _ ih => rw [terminators_insert, ih]
  | split _ hsplit => exact hsplit.elim

theorem mem_insts (h : Edited splitting added f g) {x : BlockId} {block : Block} {inst : Inst}
    (hb : g.blocks[x]? = some block) (hi : inst ∈ block.insts) :
    added inst ∨ ∃ block, f.blocks[x]? = some block ∧ inst ∈ block.insts := by
  induction h generalizing block with
  | refl => exact .inr ⟨block, hb, hi⟩
  | @insert g b old index new _ _ hindex ha ih =>
      rw [getElem?_insert] at hb
      obtain ⟨before, hbefore, rfl⟩ := Option.map_eq_some_iff.mp hb
      by_cases hx : b = x
      · simp only [hx, if_true] at hi
        rcases List.eq_or_mem_of_mem_insertIdx hi with rfl | hi
        · exact .inl ha
        · exact ih hbefore hi
      · simp only [hx, if_false] at hi
        exact ih hbefore hi
  | @split g b dest succ source target _ _ _ _ _ _ _ ih =>
      rw [getElem?_split] at hb
      split at hb
      · obtain rfl := Option.some.inj hb
        simp at hi
      · obtain ⟨before, hbefore, rfl⟩ := Option.map_eq_some_iff.mp hb
        by_cases hx : b = x
        · simp only [hx, if_true] at hi
          exact ih hbefore hi
        · simp only [hx, if_false] at hi
          exact ih hbefore hi

/-- What every insertion keeps of the instructions of a block is kept. -/
theorem block_insts (h : Edited splitting added f g) (kept : List Inst → Prop)
    (hkept : ∀ insts i inst, added inst → kept insts → kept (insts.insertIdx i inst))
    {x : BlockId} {block : Block} (hb : f.blocks[x]? = some block) (hblock : kept block.insts) :
    ∃ block', g.blocks[x]? = some block' ∧ kept block'.insts := by
  induction h with
  | refl => exact ⟨block, hb, hblock⟩
  | @insert g b old index new _ _ hindex ha ih =>
      obtain ⟨before, hbefore, hinsts⟩ := ih
      rw [getElem?_insert, hbefore, Option.map_some]
      refine ⟨_, rfl, ?_⟩
      split
      · exact hkept before.insts index new ha hinsts
      · exact hinsts
  | @split g b dest succ source target _ _ _ _ _ _ _ ih =>
      obtain ⟨before, hbefore, hinsts⟩ := ih
      have hlt := (List.getElem?_eq_some_iff.mp hbefore).1
      rw [getElem?_split, if_neg hlt.ne, hbefore, Option.map_some]
      refine ⟨_, rfl, ?_⟩
      split <;> exact hinsts

/-- What insertions keep of the instructions of every block is kept. No new block is the entry. -/
theorem forall_insts (h : Edited splitting added f g) (kept : BlockId → List Inst → Prop)
    (hkept : ∀ x insts i inst, added inst → kept x insts → kept x (insts.insertIdx i inst))
    (hnew : ∀ x, x ≠ 0 → kept x [])
    (hf : ∀ (x : ℕ) (block : Block), f.blocks[x]? = some block → kept x block.insts)
    {x : BlockId} {block : Block} (hx : g.blocks[x]? = some block) : kept x block.insts := by
  induction h generalizing x block with
  | refl => exact hf x block hx
  | @insert g b old index inst _ hb hi ha ih =>
      rw [getElem?_insert] at hx
      obtain ⟨before, hbefore, rfl⟩ := Option.map_eq_some_iff.mp hx
      split
      · exact hkept x before.insts index inst ha (ih hbefore)
      · exact ih hbefore
  | @split g b dest succ source target _ _ hs hd ht _ _ ih =>
      rw [getElem?_split] at hx
      by_cases hlen : x = g.blocks.length
      · rw [if_pos hlen] at hx
        obtain rfl := Option.some.inj hx
        have hpos := (List.getElem?_eq_some_iff.mp hs).1
        exact hnew x (hlen ▸ (Nat.zero_lt_of_lt hpos).ne')
      · rw [if_neg hlen] at hx
        obtain ⟨before, hbefore, rfl⟩ := Option.map_eq_some_iff.mp hx
        have hinsts := ih hbefore
        split <;> exact hinsts

end Edited

/-! ### Tallies -/

theorem tally_insert {f : Function} {b : BlockId} {block : Block} {index : ℕ} {inst : Inst}
    (hb : f.blocks[b]? = some block) (hi : index ≤ block.insts.length) (counted : Inst → Bool)
    (x : BlockId) :
    (f.insert b index inst).tally counted x =
      f.tally counted x + if x = b ∧ counted inst then 1 else 0 := by
  unfold tally
  rw [getElem?_insert]
  by_cases hx : b = x
  · subst hx
    have hperm := (List.perm_insertIdx inst block.insts hi).countP_eq counted
    rw [List.countP_cons] at hperm
    simp [hb, hperm]
  · have hx' : x ≠ b := fun h => hx h.symm
    simp [hx, hx']

theorem tally_split (f : Function) (b : BlockId) (succ : ℕ) (source target : Block)
    (dest : BlockId) (counted : Inst → Bool) (x : BlockId) :
    (f.split b succ (crossing source target dest)).tally counted x = f.tally counted x := by
  unfold tally
  rw [getElem?_split]
  by_cases hx : x = f.blocks.length
  · simp [hx]
  · rw [if_neg hx]
    cases f.blocks[x]? with
    | none => rfl
    | some block => by_cases hb : b = x <;> simp [hb]

/-- Instructions of a kind that is not added are where they were. -/
theorem Edited.tally_eq {splitting : Prop} {added : Inst → Prop} {f g : Function}
    (h : Edited splitting added f g) {counted : Inst → Bool}
    (hadd : ∀ inst, added inst → counted inst = false) (x : BlockId) :
    g.tally counted x = f.tally counted x := by
  induction h with
  | refl => rfl
  | insert _ hb hi ha ih =>
      rw [tally_insert hb hi, ih, hadd _ ha]
      simp
  | split _ _ _ _ _ _ _ ih => rw [tally_split, ih]

/-! ### Numbers of instructions -/

/-- How many such instructions a function has. -/
def instCount (counted : Inst → Bool) (f : Function) : ℕ :=
  (f.blocks.map fun b => b.insts.countP counted).sum

theorem instCount_insert {f : Function} {b : BlockId} {block : Block} {index : ℕ} {inst : Inst}
    (hb : f.blocks[b]? = some block) (hi : index ≤ block.insts.length) (counted : Inst → Bool) :
    (f.insert b index inst).instCount counted =
      f.instCount counted + if counted inst then 1 else 0 := by
  have hperm := (List.perm_insertIdx inst block.insts hi).countP_eq counted
  have hsum := sum_map_modify f.blocks hb
    (fun block => { block with insts := block.insts.insertIdx index inst })
    (fun block => block.insts.countP counted)
  simp only [List.countP_cons, instCount, insert, modifyBlock] at hperm hsum ⊢
  omega

theorem instCount_split {f : Function} {b : BlockId} {source : Block}
    (hs : f.blocks[b]? = some source) (succ : ℕ) (target : Block) (dest : BlockId)
    (counted : Inst → Bool) :
    (f.split b succ (crossing source target dest)).instCount counted = f.instCount counted := by
  have hsum := sum_map_modify f.blocks hs
    (fun block => { block with terminator := block.terminator.redirect succ f.blocks.length })
    (fun block => block.insts.countP counted)
  simp only [instCount, split, List.map_append, List.sum_append, List.map_cons, List.map_nil,
    List.sum_cons, List.sum_nil, insts_crossing, List.countP_nil] at hsum ⊢
  omega

theorem Edited.instCount_eq {splitting : Prop} {added : Inst → Prop} {f g : Function}
    (h : Edited splitting added f g) {counted : Inst → Bool}
    (hadd : ∀ inst, added inst → counted inst = false) :
    g.instCount counted = f.instCount counted := by
  induction h with
  | refl => rfl
  | insert _ hb hi ha ih =>
      rw [instCount_insert hb hi, ih, hadd _ ha]
      simp
  | split _ _ hs _ _ _ _ ih => rw [instCount_split hs, ih]

end Function

end FlowProfile
