import FlowProfile.Proofs.Exec.Instruction

/-!
# Plain programs

A plain program has not been instrumented: it neither counts, nor reads a counter array,
nor calls or defines an entry point of the runtime.
-/

namespace FlowProfile

def Operand.isGlobal : Operand → Bool
  | .global _ => true
  | _ => false

def Callee.operands : Callee → List Operand
  | .direct _ => []
  | .indirect target => [target]

/-- The operands of an instruction of the program itself. -/
def Inst.operands : Inst → List Operand
  | .op _ _ operands => operands
  | .call callee args => callee.operands ++ args
  | _ => []

def Terminator.operands : Terminator → List Operand
  | .condBr cond _ _ => [cond]
  | .switch value _ _ => [value]
  | _ => []

/-- Is it a computation or a call? All others belong to instrumentation. -/
def Inst.isOwn : Inst → Bool
  | .op _ _ _ | .call _ _ => true
  | _ => false

def Inst.IsPlain (inst : Inst) : Prop :=
  inst.isOwn = true ∧ (∀ o ∈ inst.operands, o.isGlobal = false) ∧
    ∀ name ∈ inst.callee?, Strategy.ofEntryPoint? name = none

instance (inst : Inst) : Decidable inst.IsPlain :=
  inferInstanceAs (Decidable (_ ∧ _ ∧ ∀ name ∈ inst.callee?, _))

def Block.IsPlain (b : Block) : Prop :=
  (∀ inst ∈ b.insts, inst.IsPlain) ∧ ∀ o ∈ b.terminator.operands, o.isGlobal = false

instance (b : Block) : Decidable b.IsPlain :=
  inferInstanceAs (Decidable ((∀ inst ∈ b.insts, inst.IsPlain) ∧ _))

/-- No instruction of instrumentation, no counter array as an operand, and neither a function
nor a callee with the name of an entry point. -/
def Program.IsPlain (p : Program) : Prop :=
  ∀ f ∈ p.functions, Strategy.ofEntryPoint? f.name = none ∧ ∀ b ∈ f.blocks, b.IsPlain

instance (p : Program) : Decidable p.IsPlain :=
  inferInstanceAs (Decidable (∀ f ∈ p.functions, _ ∧ ∀ b ∈ f.blocks, b.IsPlain))

namespace Program.IsPlain

variable {p : Program}

theorem block (hp : p.IsPlain) {function : ℕ} {b : BlockId} {block : Block}
    (hb : p.block? function b = some block) : block.IsPlain := by
  obtain ⟨f, hf, hb⟩ := block?_eq_some_iff.mp hb
  exact (hp f (List.mem_of_getElem? hf)).2 block (List.mem_of_getElem? hb)

theorem hasInst (hp : p.IsPlain) {inst : Inst} (h : p.HasInst inst) : inst.IsPlain := by
  obtain ⟨function, b, block, hb, hi⟩ := h
  exact (hp.block hb).1 inst hi

end Program.IsPlain

end FlowProfile
