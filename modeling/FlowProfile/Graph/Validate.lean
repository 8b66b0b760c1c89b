import FlowProfile.Failure
import FlowProfile.Graph.Edge

/-! A program is valid if every edge ends at a block of its function other than the entry. -/

namespace FlowProfile

def Function.IsValid (f : Function) : Prop :=
  ∀ block ∈ f.blocks, ∀ dest ∈ block.terminator.successors, dest < f.blocks.length ∧ dest ≠ 0

instance (f : Function) : Decidable f.IsValid :=
  inferInstanceAs (Decidable (∀ block ∈ f.blocks, ∀ dest ∈ block.terminator.successors, _))

def Program.IsValid (p : Program) : Prop := ∀ f ∈ p.functions, f.IsValid

instance (p : Program) : Decidable p.IsValid :=
  inferInstanceAs (Decidable (∀ f ∈ p.functions, f.IsValid))

/-- What is wrong with an edge from a block of `f`. -/
def Function.defect? (f : Function) (block dest : BlockId) : Option Cause :=
  if f.blocks.length ≤ dest then some (.missingTarget block f.name dest)
  else if dest = 0 then some (.entryTarget block f.name)
  else none

/-- What is wrong with the first bad edge. -/
def Function.firstDefect? (f : Function) : Option Cause :=
  f.blocks.zipIdx.findSome? fun (block, i) => block.terminator.successors.findSome? (f.defect? i)

def Program.validate (p : Program) : Outcome Unit :=
  match p.functions.findSome? Function.firstDefect? with
  | some cause => .fail cause
  | none => .ok ()

theorem Function.firstDefect?_eq_none_iff (f : Function) :
    f.firstDefect? = none ↔ f.IsValid := by
  have h : ∀ i dest, f.defect? i dest = none ↔ dest < f.blocks.length ∧ dest ≠ 0 := by
    intro i dest
    unfold defect?
    split <;> grind
  simp only [firstDefect?, List.findSome?_eq_none_iff, IsValid, h]
  constructor
  · intro all block hb
    obtain ⟨i, hi, rfl⟩ := List.getElem_of_mem hb
    exact all (f.blocks[i], i) (List.mk_mem_zipIdx_iff_getElem?.2 (by simp [hi]))
  · intro all x hx dest hd
    exact all x.1 (List.fst_mem_of_mem_zipIdx hx) dest hd

theorem Program.validate_eq_ok_iff (p : Program) : p.validate = .ok () ↔ p.IsValid := by
  have h : p.functions.findSome? Function.firstDefect? = none ↔ p.IsValid := by
    simp [List.findSome?_eq_none_iff, Function.firstDefect?_eq_none_iff, IsValid]
  rw [← h]
  unfold validate
  split <;> simp_all [Outcome.fail]

end FlowProfile
