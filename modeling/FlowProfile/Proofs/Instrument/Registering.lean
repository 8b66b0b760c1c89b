import FlowProfile.Proofs.Instrument.Originals

/-!
# Where strategies are registered

The calls that register strategies stand at the start of the entry function, the last strategy
first. Other added instructions may come between them, but nothing of the program itself.
-/

namespace FlowProfile

/-- The strategy that the instruction registers. -/
def Inst.registered? (inst : Inst) : Option Strategy := inst.callee?.bind Strategy.ofEntryPoint?

/-- The strategies that the instructions register, in their order. -/
def registrations (insts : List Inst) : List Strategy := insts.filterMap Inst.registered?

theorem Inst.registered?_of_isOriginal {inst : Inst} (h : inst.isOriginal = true) :
    inst.registered? = none := by
  rw [isOriginal, Bool.and_eq_true, Option.isNone_iff_eq_none] at h
  exact h.2

theorem Strategy.registered?_registration (s : Strategy) : s.registration.registered? = some s :=
  s.ofEntryPoint?_entryPoint

theorem Pass.Adds.registered?_eq_none {values : Operand → Prop} {len : ℕ} {pass : Pass}
    {inst : Inst} (h : pass.Adds values len inst) : inst.registered? = none := by
  cases h <;> rfl

/-! ### One block -/

theorem pairwise_insertIdx {α : Type} {R : α → α → Prop} {xs : List α} {x : α}
    (h : xs.Pairwise R) (hbefore : ∀ y, R y x) (hbehind : ∀ y, R x y) (i : ℕ) :
    (xs.insertIdx i x).Pairwise R := by
  induction xs generalizing i with
  | nil =>
      cases i with
      | zero => exact List.pairwise_singleton R x
      | succ i => exact .nil
  | cons y xs ih =>
      cases i with
      | zero => exact .cons (fun z _ => hbehind z) h
      | succ i =>
          obtain ⟨hy, hxs⟩ := List.pairwise_cons.mp h
          refine .cons (fun z hz => ?_) (ih hxs i)
          rcases List.eq_or_mem_of_mem_insertIdx hz with rfl | hz
          · exact hbefore y
          · exact hy z hz

theorem registrations_insertIdx {inst : Inst} (hinst : inst.registered? = none)
    (insts : List Inst) (i : ℕ) : registrations (insts.insertIdx i inst) = registrations insts :=
  ((Woven.refl insts).insertIdx hinst i).filterMap_eq fun _ => id

/-- The given strategies are registered, none of them behind an instruction of the program. -/
structure Registering (ss : List Strategy) (insts : List Inst) : Prop where
  first : insts.Pairwise fun before behind => before.isOriginal = true → behind.registered? = none
  eq : registrations insts = ss

namespace Registering

variable {ss : List Strategy} {insts : List Inst} {inst : Inst}

theorem nil : Registering [] [] := ⟨.nil, rfl⟩

theorem of_isOriginal (h : ∀ inst ∈ insts, inst.isOriginal = true) : Registering [] insts where
  first := List.pairwise_of_forall_mem_list fun _ _ behind hb _ =>
    Inst.registered?_of_isOriginal (h behind hb)
  eq := List.filterMap_eq_nil_iff.mpr fun inst hi => Inst.registered?_of_isOriginal (h inst hi)

theorem insertIdx (h : Registering ss insts) (hown : inst.isOriginal = false)
    (hinst : inst.registered? = none) (i : ℕ) : Registering ss (insts.insertIdx i inst) where
  first := by
    refine pairwise_insertIdx h.first (fun _ _ => hinst) (fun _ horiginal => ?_) i
    rw [hown] at horiginal
    cases horiginal
  eq := (registrations_insertIdx hinst insts i).trans h.eq

theorem register (h : Registering ss insts) (s : Strategy) :
    Registering (s :: ss) (s.registration :: insts) where
  first := by
    refine .cons (fun _ _ horiginal => ?_) h.first
    rw [s.isOriginal_registration] at horiginal
    cases horiginal
  eq := by
    rw [registrations, List.filterMap_cons_some s.registered?_registration]
    exact congrArg (s :: ·) h.eq

/-- Behind an instruction of the program nothing is registered. -/
theorem behind (h : Registering ss insts) {rest : List Inst} (hsuffix : inst :: rest <:+ insts)
    (hinst : inst.isOriginal = true) : registrations rest = [] := by
  obtain ⟨hrest, -⟩ := List.pairwise_cons.mp (h.first.sublist hsuffix.sublist)
  exact List.filterMap_eq_nil_iff.mpr fun other hmem => hrest other hmem hinst

end Registering

/-! ### Programs -/

namespace Program

variable {splitting : Prop} {added : Inst → Prop} {p q : Program} {main : ℕ} {ss : List Strategy}

/-- The strategies are registered at the entry of `main` and nowhere else. -/
def RegistersAt (main : ℕ) (ss : List Strategy) (p : Program) : Prop :=
  ∀ function b block, p.block? function b = some block →
    Registering (if function = main ∧ b = 0 then ss else []) block.insts

theorem IsOriginal.registersAt (hp : p.IsOriginal) (main : ℕ) : p.RegistersAt main [] := by
  intro function b block hb
  rw [ite_self]
  exact .of_isOriginal fun inst hmem => hp.hasInst ⟨function, b, block, hb, hmem⟩

theorem Edited.registersAt (h : p.Edited splitting added q)
    (hadd : ∀ inst, added inst → inst.isOriginal = false ∧ inst.registered? = none)
    (hp : p.RegistersAt main ss) : q.RegistersAt main ss := by
  intro function b block hb
  obtain ⟨g, hg, hb⟩ := block?_eq_some_iff.mp hb
  obtain ⟨f, hf, hfg⟩ := h.exists_left hg
  refine hfg.forall_insts (fun x => Registering (if function = main ∧ x = 0 then ss else []))
    ?_ ?_ ?_ hb
  · intro x insts i inst ha hinsts
    exact hinsts.insertIdx (hadd inst ha).1 (hadd inst ha).2 i
  · intro x hx
    rw [if_neg fun hentry => hx hentry.2]
    exact .nil
  · intro x block' hx
    exact hp function x block' (block?_eq_some_iff.mpr ⟨f, hf, hx⟩)

theorem RegistersAt.register (hp : p.RegistersAt main ss) {s : Strategy}
    (h : (p.update main fun f => f.insertAtStart 0 s.registration) = .ok q) :
    q.RegistersAt main (s :: ss) := by
  obtain ⟨rfl, entry, hentry, -⟩ := update_insertAt h
  intro function b block hb
  by_cases hplace : function = main ∧ b = 0
  · obtain ⟨rfl, rfl⟩ := hplace
    rw [block?_insert_self hentry] at hb
    obtain rfl := Option.some.inj hb
    have hregistering := hp function 0 entry hentry
    rw [if_pos ⟨rfl, rfl⟩] at hregistering ⊢
    exact hregistering.register s
  · rw [block?_insert_ne fun heq => hplace ⟨heq.1.symm, heq.2.symm⟩] at hb
    have hregistering := hp function b block hb
    rwa [if_neg hplace] at hregistering ⊢

end Program

namespace Instrumenter

variable {ins : Instrumenter} {blocks : List ℕ} {p q : Program} {main : ℕ} {ss : List Strategy}

theorem apply_registersAt (hblocks : blocks.length = p.functions.length)
    (hp : p.RegistersAt main ss) {s : Strategy} (h : ins.apply blocks main p s = .ok q) :
    q.RegistersAt main (s :: ss) := by
  simp only [apply, Outcome.bind_eq_ok_iff] at h
  obtain ⟨passed, hpassed, hregister⟩ := h
  refine Program.RegistersAt.register ?_ hregister
  refine (Outcome.foldlM_invariant
    (fun r => blocks.length = r.functions.length ∧ r.RegistersAt main ss) ?_ ⟨hblocks, hp⟩
    hpassed).2
  rintro pass - r r' ⟨hlen, hkept⟩ hr
  obtain ⟨-, -, hedited⟩ := pass_spec hlen r.copies_true (fun _ _ => trivial) hr
  exact ⟨hlen.trans hedited.length_eq.symm, hedited.registersAt
    (fun inst ha => ⟨ha.isOriginal_eq_false, ha.registered?_eq_none⟩) hkept⟩

/-- Each strategy is registered before those that were applied before it. -/
theorem strategies_registersAt {strategies : List Strategy}
    (hblocks : blocks.length = p.functions.length) (hp : p.RegistersAt main ss)
    (h : strategies.foldlM (ins.apply blocks main) p = .ok q) :
    q.RegistersAt main (strategies.reverse ++ ss) := by
  induction strategies generalizing p ss with
  | nil =>
      obtain rfl : p = q := by simpa using h
      exact hp
  | cons s strategies ih =>
      rw [List.foldlM_cons, Outcome.bind_eq_ok_iff] at h
      obtain ⟨mid, hmid, h⟩ := h
      obtain ⟨hgrows, -⟩ := apply_grows hblocks p.copies_true (fun _ _ => trivial) hmid
      rw [List.reverse_cons, List.append_assoc]
      exact ih (hblocks.trans hgrows.edited.length_eq.symm) (apply_registersAt hblocks hp hmid) h

end Instrumenter

end FlowProfile
