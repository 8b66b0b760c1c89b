import FlowProfile.Proofs.Exec.Registrations
import FlowProfile.Proofs.Instrument.Timing

/-!
# Instrumented programs

All that a run needs to know of a plain program and of what instrumentation made of it. No
name of a function with a body is that of a message-passing operation, so that a call whose
time is measured runs no block.
-/

namespace FlowProfile

/-- What instrumentation by the given strategies may have inserted into `q`. Its operands are
those of the program. -/
abbrev Inst.AddedTo (used : Strategy → Prop) (q : Program) : Inst → Prop :=
  Inst.Added (·.isGlobal = false) used q

structure Program.Instrumented (used : Strategy → Prop) (p q : Program) : Prop where
  valid : p.IsValid
  plain : p.IsPlain
  outside : ∀ f ∈ p.functions, f.isDeclaration = false → Comm.Operation.lookup? f.name = none
  grows : p.Grows (·.isGlobal = false) used q
  declares : ∀ s, used s → ∀ pass ∈ s.passes, ∃ len, q.Declares (pass.global len)
  paced : q.Paced

namespace Program

variable {splitting : Prop} {added : Inst → Prop} {used : Strategy → Prop} {p q : Program}

theorem Edited.functionIndex?_eq (h : p.Edited splitting added q) (name : String) :
    q.functionIndex? name = p.functionIndex? name := by
  have hindex : ∀ p : Program,
      p.functionIndex? name = (p.functions.map (·.name)).findIdx? (· == name) := by
    intro p
    rw [List.findIdx?_map]
    rfl
  rw [hindex, hindex, h.map_eq fun _ _ hfg => hfg.name_eq]

theorem Edited.definition?_eq (h : p.Edited splitting added q) (name : String) :
    q.definition? name = p.definition? name := by
  have hbody : ∀ (p : Program) (i : ℕ), (p.functions[i]?).any (!·.isDeclaration) =
      ((p.functions.map (·.isDeclaration))[i]?).any (!·) := by
    intro p i
    rw [List.getElem?_map, Option.any_map]
  simp only [definition?, h.functionIndex?_eq name, hbody,
    h.map_eq fun _ _ hfg => hfg.isDeclaration_eq]

theorem definition?_eq_none_of_lookup?
    (h : ∀ f ∈ p.functions, f.isDeclaration = false → Comm.Operation.lookup? f.name = none)
    {name : String} {op : Comm.Operation} (hop : Comm.Operation.lookup? name = some op) :
    p.definition? name = none := by
  rw [definition?, Option.filter_eq_none_iff]
  intro i hi hbody
  obtain ⟨hlt, hname, -⟩ := List.findIdx?_eq_some_iff_getElem.mp hi
  rw [List.getElem?_eq_getElem hlt, Option.any_some, Bool.not_eq_true'] at hbody
  have hnone := h _ (List.getElem_mem hlt) hbody
  rw [beq_iff_eq.mp hname, hop] at hnone
  cases hnone

theorem Edited.resolve_eq (h : p.Edited splitting added q) (callee : Callee) (vars : Variables) :
    callee.resolve q vars = callee.resolve p vars := by
  have hname : ∀ i : ℕ, (q.functions[i]?).map (·.name) = (p.functions[i]?).map (·.name) := by
    intro i
    rw [← List.getElem?_map, ← List.getElem?_map, h.map_eq fun _ _ hfg => hfg.name_eq]
  cases callee with
  | direct name => rfl
  | indirect target =>
      simp only [Callee.resolve]
      refine congrArg _ (funext fun index => ?_)
      by_cases hindex : 0 ≤ index
      · have hsame := hname index.toNatClampNeg
        simp only [if_pos hindex]
        cases hq : q.functions[index.toNatClampNeg]? with
        | none =>
            rw [hq] at hsame
            rw [Option.map_eq_none_iff.mp hsame.symm]
        | some g =>
            rw [hq] at hsame
            obtain ⟨f, hf, hfg⟩ := Option.map_eq_some_iff.mp hsame.symm
            simp only [hf, hfg]
      · simp only [if_neg hindex]

namespace Instrumented

theorem hasInst (h : p.Instrumented used q) {inst : Inst} (hinst : q.HasInst inst) :
    inst.AddedTo used q ∨ inst.IsPlain := by
  rcases h.grows.edited.hasInst hinst with ha | hinst
  · exact .inl ha
  · exact .inr (h.plain.hasInst hinst)

theorem registers (h : p.Instrumented used q) : q.Registers used :=
  h.grows.registers h.plain.isUninstrumented

/-- A recognised operation is no function of the program. -/
theorem definition?_eq_none (h : p.Instrumented used q) {name : String} {op : Comm.Operation}
    (hop : Comm.Operation.lookup? name = some op) : q.definition? name = none := by
  rw [h.grows.edited.definition?_eq]
  exact Program.definition?_eq_none_of_lookup? h.outside hop

end Instrumented

end Program

/-- Whatever the strategies are, the program that comes out is instrumented. -/
theorem Instrumenter.instrumented {ins : Instrumenter} {p q : Program} (hp : p.IsPlain)
    (houtside : ∀ f ∈ p.functions, f.isDeclaration = false → Comm.Operation.lookup? f.name = none)
    (hw : ∀ w ∈ ins.weights, w.value.isGlobal = false) (h : ins.instrument p = .ok q) :
    ∃ used, p.Instrumented used q := by
  cases hmain : p.functionIndex? ins.entry with
  | none =>
      simp only [instrument, hmain, Outcome.bind_eq_ok_iff, Outcome.pure_eq_ok_iff] at h
      obtain ⟨_, hvalid, rfl⟩ := h
      exact ⟨fun _ => False, (Program.validate_eq_ok_iff p).mp hvalid, hp, houtside, .refl p,
        fun _ hs => hs.elim, hp.timeless.allInsts Paced.kept⟩
  | some main =>
      obtain ⟨hvalid, -, -, happly⟩ := instrument_eq_ok hmain h
      have hlen : p.blockCounts.length = p.functions.length := by
        rw [Program.blockCounts, List.length_map]
      have hcopies : p.Copies (·.isGlobal = false) := fun name args hinst _ o ho =>
        (hp.hasInst hinst).2.1 o (List.mem_append_right _ ho)
      obtain ⟨hgrows, hnodup, hall⟩ := strategies_grow hlen hcopies hw happly
      refine ⟨(· ∈ ins.strategies), hvalid, hp, houtside, hgrows, ?_, ?_⟩
      · intro s hs pass hpass
        obtain ⟨-, len, hdecl, -⟩ := hall s hs pass hpass
        exact ⟨len, hdecl⟩
      · exact strategies_allInsts Paced.kept hlen hcopies hw hnodup
          (hp.timeless.allInsts Paced.kept) (fun _ => hp.timeless) happly

end FlowProfile
