import FlowProfile.Graph.Edit
import FlowProfile.Instrument.Edges
import FlowProfile.Instrument.Weight

/-! Weighing blocks. Each block of a function with a body has a slot, in program order. -/

namespace FlowProfile

attribute [local instance] natZero

/-- An addition to a slot at the end of a block. -/
structure WeightUpdate where
  function : Nat
  block : BlockId
  slot : Nat
  value : Operand
deriving DecidableEq, Repr

/-- Finds the block of a weight among the blocks that each function had at first. -/
def Program.locateWeight (p : Program) (blocks : List Nat) (w : BlockWeight) :
    Outcome WeightUpdate := do
  let function ← .ofOption (.unknownWeightFunction w.function) (p.functionIndex? w.function)
  let count := (blocks[function]?).getD 0
  Outcome.require (w.block < count) (.weightOutOfRange w.block w.function count)
  let slot ← narrow ((blocks.take function).sum + w.block) .notAWord
  return ⟨function, w.block, slot, w.value⟩

def Program.weigh (counters : String) (p : Program) (u : WeightUpdate) : Outcome Program :=
  p.update u.function fun f => f.insertAtEnd u.block (.addWeight counters u.slot u.value)

/-- Adds every weight at the end of its block. Blocks without a weight keep their slot. -/
def Program.weighBlocks (p : Program) (blocks : List Nat) (weights : List BlockWeight)
    (counters : String) : Outcome Program := do
  let updates ← weights.mapM (p.locateWeight blocks)
  let len ← narrow blocks.sum (.tooManyBlocks blocks.sum)
  let p ← p.declare ⟨counters, .f64, len, 0⟩
  updates.foldlM (Program.weigh counters) p

end FlowProfile
