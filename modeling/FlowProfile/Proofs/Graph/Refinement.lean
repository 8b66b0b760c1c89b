import FlowProfile.Proofs.Graph.Edited

/-!
# Edited functions refine the functions they come from

The blocks that a function had keep their own instructions, between which others are
woven in. Their edges lead where they led, perhaps through a block that was put onto the
edge: it does nothing but what was added, it goes on to where the edge led, and nothing
else leads to it.
-/

namespace FlowProfile

/-! ### Targets -/

namespace Terminator

/-- Sends every edge elsewhere. -/
def mapTargets (move : BlockId → BlockId) : Terminator → Terminator
  | .br target => .br (move target)
  | .condBr cond thenBlock elseBlock => .condBr cond (move thenBlock) (move elseBlock)
  | .switch value default cases =>
    .switch value (move default) (cases.map fun c => (c.1, move c.2))
  | .ret => .ret
  | .unreachable => .unreachable

@[simp] theorem successors_mapTargets (move : BlockId → BlockId) (t : Terminator) :
    (t.mapTargets move).successors = t.successors.map move := by
  cases t <;> simp [mapTargets, successors]

theorem mapTargets_congr {move move' : BlockId → BlockId} {t : Terminator}
    (h : ∀ x ∈ t.successors, move x = move' x) : t.mapTargets move = t.mapTargets move' := by
  cases t with
  | switch value default cases =>
      simp only [successors, List.mem_cons, List.mem_map, forall_eq_or_imp,
        forall_exists_index, and_imp, forall_apply_eq_imp_iff₂] at h
      simp only [mapTargets, h.1, switch.injEq, true_and]
      exact List.map_congr_left fun c hc => Prod.ext rfl (h.2 c hc)
  | _ => simp_all [mapTargets, successors]

theorem mapTargets_eq_self {move : BlockId → BlockId} {t : Terminator}
    (h : ∀ x ∈ t.successors, move x = x) : t.mapTargets move = t := by
  have hid : t.mapTargets id = t := by
    cases t <;> simp [mapTargets]
  have hmove : ∀ x ∈ t.successors, move x = id x := h
  rw [mapTargets_congr hmove, hid]

/-- A redirected edge that leads on to where it led is as good as before. -/
theorem mapTargets_redirect {move : BlockId → BlockId} {t : Terminator} {succ : ℕ}
    {dest fresh : BlockId} (hd : t.successors[succ]? = some dest) (hmove : move fresh = move dest) :
    (t.redirect succ fresh).mapTargets move = t.mapTargets move := by
  cases t with
  | br target =>
      cases succ <;> simp_all [successors, redirect, mapTargets]
  | condBr cond thenBlock elseBlock =>
      rcases succ with _ | _ | succ <;> simp_all [successors, redirect, mapTargets]
  | switch value default cases =>
      cases succ with
      | zero => simp_all [successors, redirect, mapTargets]
      | succ i =>
          simp only [successors, List.getElem?_cons_succ, List.getElem?_map,
            Option.map_eq_some_iff] at hd
          obtain ⟨c, hc, rfl⟩ := hd
          simp only [redirect, mapTargets, switch.injEq, true_and]
          apply List.ext_getElem?
          intro j
          rw [List.getElem?_map, List.getElem?_map, List.getElem?_modify]
          by_cases hij : i = j
          · subst hij
            simp [hc, hmove]
          · simp [hij]
  | ret => simp [successors] at hd
  | unreachable => simp [successors] at hd

end Terminator

/-! ### Woven instructions -/

/-- The second list is the first with added instructions in between. -/
inductive Woven (added : Inst → Prop) : List Inst → List Inst → Prop where
  | nil : Woven added [] []
  | own {inst : Inst} {xs ys : List Inst} (h : Woven added xs ys) :
      Woven added (inst :: xs) (inst :: ys)
  | add {inst : Inst} {xs ys : List Inst} (ha : added inst) (h : Woven added xs ys) :
      Woven added xs (inst :: ys)

namespace Woven

variable {added : Inst → Prop} {xs ys : List Inst}

theorem refl (xs : List Inst) : Woven added xs xs := by
  induction xs with
  | nil => exact .nil
  | cons inst xs ih => exact ih.own

theorem insertIdx {inst : Inst} (ha : added inst) (h : Woven added xs ys) (i : ℕ) :
    Woven added xs (ys.insertIdx i inst) := by
  induction h generalizing i with
  | nil =>
      cases i with
      | zero => exact .add ha .nil
      | succ i => exact .nil
  | own h ih =>
      cases i with
      | zero => exact .add ha h.own
      | succ i => exact (ih i).own
  | add ha' h ih =>
      cases i with
      | zero => exact .add ha (.add ha' h)
      | succ i => exact .add ha' (ih i)

/-- Only added instructions come before the first one. -/
theorem exists_of_cons {inst : Inst} {zs : List Inst} (h : Woven added (inst :: xs) zs) :
    ∃ lead rest, zs = lead ++ inst :: rest ∧ (∀ inst ∈ lead, added inst) ∧
      Woven added xs rest := by
  generalize hcons : inst :: xs = all at h
  induction h with
  | nil => cases hcons
  | own h _ =>
      obtain ⟨rfl, rfl⟩ := List.cons.inj hcons
      exact ⟨[], _, rfl, nofun, h⟩
  | @add inst' all zs ha h ih =>
      obtain ⟨lead, rest, rfl, hlead, hrest⟩ := ih hcons
      exact ⟨inst' :: lead, rest, rfl, List.forall_mem_cons.mpr ⟨ha, hlead⟩, hrest⟩

/-- What is behind some instructions is still behind them. -/
theorem exists_of_append {zs : List Inst} (h : Woven added (xs ++ ys) zs) :
    ∃ rest, rest <:+ zs ∧ Woven added ys rest := by
  induction xs generalizing zs with
  | nil => exact ⟨zs, List.suffix_rfl, h⟩
  | cons x xs ih =>
      obtain ⟨lead, rest, rfl, -, hrest⟩ := h.exists_of_cons
      obtain ⟨rest', hsuffix, hrest'⟩ := ih hrest
      exact ⟨rest', (hsuffix.trans (List.suffix_cons x rest)).trans (List.suffix_append lead _),
        hrest'⟩

end Woven

namespace Function

/-! ### Landings -/

/-- Where a block is or leads to, among the first `own` blocks. -/
def landing (g : Function) (own : ℕ) (x : BlockId) : BlockId :=
  if x < own then x else ((g.successors x).head?).getD x

theorem landing_of_lt {g : Function} {own x : ℕ} (h : x < own) : g.landing own x = x := if_pos h

/-- A split of an edge that leaves one of the first blocks moves no other landing. -/
theorem landing_split_of_lt {g : Function} {own b succ dest x : ℕ} {source target : Block}
    (hb : b < own) (hx : x < g.blocks.length) :
    (g.split b succ (FlowProfile.Function.crossing source target dest)).landing own x =
      g.landing own x := by
  unfold landing
  by_cases hxOwn : x < own
  · rw [if_pos hxOwn, if_pos hxOwn]
  · have hbx : b ≠ x := by omega
    rw [if_neg hxOwn, if_neg hxOwn, successors_split, if_neg hx.ne, if_neg hbx]

theorem landing_split_fresh {g : Function} {own b succ dest : ℕ} {source target : Block}
    (hown : own ≤ g.blocks.length) :
    (g.split b succ (FlowProfile.Function.crossing source target dest)).landing own
      g.blocks.length = dest := by
  rw [landing, if_neg (Nat.not_lt.mpr hown), successors_split, if_pos rfl]
  rfl

/-- The blocks of `f`, their instructions and their edges are in `g`. -/
structure Refines (added : Inst → Prop) (f g : Function) : Prop where
  valid : g.IsValid
  length : f.blocks.length ≤ g.blocks.length
  own : ∀ (b : ℕ) (block : Block), f.blocks[b]? = some block →
    ∃ block', g.blocks[b]? = some block' ∧ Woven added block.insts block'.insts ∧
      block'.terminator.mapTargets (g.landing f.blocks.length) = block.terminator
  crossing : ∀ (x : ℕ) (block' : Block), f.blocks.length ≤ x → g.blocks[x]? = some block' →
    (∀ inst ∈ block'.insts, added inst) ∧ g.predecessorCount x = 1 ∧
    ∃ dest < f.blocks.length, block'.terminator = .br dest

variable {added : Inst → Prop} {f g : Function}

theorem Refines.refl (hf : f.IsValid) : f.Refines added f where
  valid := hf
  length := le_rfl
  own b block hb := by
    refine ⟨block, hb, .refl _, Terminator.mapTargets_eq_self ?_⟩
    intro x hx
    exact landing_of_lt (hf block (List.mem_of_getElem? hb) x hx).1
  crossing x block' hx hb := by
    rw [List.getElem?_eq_none hx] at hb
    cases hb

theorem Refines.insert (h : f.Refines added g) {b : BlockId} {block : Block} {index : ℕ}
    {inst : Inst} (hb : g.blocks[b]? = some block) (ha : added inst) :
    f.Refines added (g.insert b index inst) := by
  have hlanding : (g.insert b index inst).landing = g.landing := by
    funext own x
    unfold landing
    rw [successors_insert]
  refine ⟨(isValid_congr (terminators_insert _ _ _ _)).mpr h.valid, by simpa using h.length, ?_, ?_⟩
  · intro x old hx
    obtain ⟨block', hb', hwoven, hterm⟩ := h.own x old hx
    rw [hlanding]
    by_cases hbx : b = x
    · subst hbx
      obtain rfl : block = block' := Option.some.inj (hb.symm.trans hb')
      refine ⟨{ block with insts := block.insts.insertIdx index inst }, ?_,
        hwoven.insertIdx ha index, hterm⟩
      rw [getElem?_insert, hb]
      simp
    · exact ⟨block', by rw [getElem?_insert, hb']; simp [hbx], hwoven, hterm⟩
  · intro x block' hx hb'
    rw [getElem?_insert] at hb'
    obtain ⟨old, hold, rfl⟩ := Option.map_eq_some_iff.mp hb'
    obtain ⟨hinsts, hpred, hterm⟩ := h.crossing x old hx hold
    rw [predecessorCount_congr (terminators_insert _ _ _ _)]
    by_cases hbx : b = x
    · rw [if_pos hbx]
      refine ⟨?_, hpred, hterm⟩
      intro inst' hmem
      rcases List.eq_or_mem_of_mem_insertIdx hmem with rfl | hmem
      · exact ha
      · exact hinsts inst' hmem
    · rw [if_neg hbx]
      exact ⟨hinsts, hpred, hterm⟩

/-- A critical edge leaves one of the first blocks for another of them. -/
theorem Refines.split (h : f.Refines added g) {b dest succ : ℕ}
    {source target : Block} (hs : g.blocks[b]? = some source)
    (hd : source.terminator.successors[succ]? = some dest) (ht : g.blocks[dest]? = some target)
    (hout : 1 < source.terminator.successors.length) (hin : 1 < g.predecessorCount dest) :
    f.Refines added (g.split b succ (FlowProfile.Function.crossing source target dest)) := by
  have hbOwn : b < f.blocks.length := by
    by_contra hge
    obtain ⟨-, -, d, -, hbr⟩ := h.crossing b source (Nat.le_of_not_lt hge) hs
    rw [hbr] at hout
    exact absurd hout (by simp [Terminator.successors])
  have hdOwn : dest < f.blocks.length := by
    by_contra hge
    obtain ⟨-, hpred, -⟩ := h.crossing dest target (Nat.le_of_not_lt hge) ht
    omega
  have hlen := h.length
  set g' := g.split b succ (FlowProfile.Function.crossing source target dest) with hg'
  have hlanding : ∀ x, x < g.blocks.length →
      g'.landing f.blocks.length x = g.landing f.blocks.length x :=
    fun x hx => landing_split_of_lt hbOwn hx
  have hfresh : g'.landing f.blocks.length g.blocks.length = dest := landing_split_fresh hlen
  have hsame : ∀ block ∈ g.blocks, block.terminator.mapTargets (g'.landing f.blocks.length) =
      block.terminator.mapTargets (g.landing f.blocks.length) := by
    intro block hmem
    exact Terminator.mapTargets_congr fun x hx => hlanding x (h.valid block hmem x hx).1
  refine ⟨isValid_split h.valid hs hd, by rw [hg', length_split]; omega, ?_, ?_⟩
  · intro x old hx
    obtain ⟨block', hb', hwoven, hterm⟩ := h.own x old hx
    have hxOwn : x < f.blocks.length := (List.getElem?_eq_some_iff.mp hx).1
    rw [hg', getElem?_split, if_neg (Nat.lt_of_lt_of_le hxOwn hlen).ne, hb']
    by_cases hbx : b = x
    · subst hbx
      obtain rfl : source = block' := Option.some.inj (hs.symm.trans hb')
      refine ⟨{ source with terminator := source.terminator.redirect succ g.blocks.length },
        by simp, hwoven, ?_⟩
      rw [← hg', Terminator.mapTargets_redirect hd, hsame source (List.mem_of_getElem? hs), hterm]
      rw [hfresh, landing_of_lt hdOwn]
    · refine ⟨block', by simp [hbx], hwoven, ?_⟩
      rw [← hg', hsame block' (List.mem_of_getElem? hb'), hterm]
  · intro x block' hx hb'
    rw [hg', predecessorCount_split hs hd]
    rw [hg', getElem?_split] at hb'
    by_cases hxNew : x = g.blocks.length
    · rw [if_pos hxNew] at hb'
      obtain rfl := Option.some.inj hb'
      subst hxNew
      rw [predecessorCount_eq_zero h.valid.not_dangles le_rfl, if_pos rfl]
      exact ⟨by simp, rfl, dest, hdOwn, rfl⟩
    · rw [if_neg hxNew] at hb'
      obtain ⟨old, hold, rfl⟩ := Option.map_eq_some_iff.mp hb'
      rw [if_neg (by omega : ¬b = x), if_neg (Ne.symm hxNew)]
      exact h.crossing x old hx hold

/-- An edge of the original lands where it led. -/
theorem Refines.landing_successor (h : f.Refines added g) {b : ℕ} (hb : b < f.blocks.length)
    (succ : ℕ) :
    (f.successors b)[succ]? = ((g.successors b)[succ]?).map (g.landing f.blocks.length) := by
  obtain ⟨block', hb', -, hterm⟩ := h.own b _ (List.getElem?_eq_getElem hb)
  rw [successors_eq (List.getElem?_eq_getElem hb), ← hterm, successors_eq hb',
    Terminator.successors_mapTargets, List.getElem?_map]

/-- The block on an edge goes on to where it lands. -/
theorem Refines.landing_crossing (h : f.Refines added g) {x : ℕ} {block : Block}
    (hx : f.blocks.length ≤ x) (hb : g.blocks[x]? = some block) {succ dest : ℕ}
    (hd : block.terminator.successors[succ]? = some dest) :
    g.landing f.blocks.length x = dest ∧ dest < f.blocks.length := by
  obtain ⟨-, -, dest', hlt, hterm⟩ := h.crossing x block hx hb
  have hsucc : block.terminator.successors = [dest'] := by
    rw [hterm]
    rfl
  rw [hsucc] at hd
  obtain rfl : dest' = dest := by
    cases succ <;> simp_all
  refine ⟨?_, hlt⟩
  rw [landing, if_neg (Nat.not_lt.mpr hx), successors_eq hb, hsucc]
  rfl

theorem Edited.refines {splitting : Prop} (h : f.Edited splitting added g) (hf : f.IsValid) :
    f.Refines added g := by
  induction h with
  | refl => exact .refl hf
  | insert _ hb _ ha ih => exact ih.insert hb ha
  | split _ _ hs hd ht hout hin ih => exact ih.split hs hd ht hout hin

end Function

end FlowProfile
