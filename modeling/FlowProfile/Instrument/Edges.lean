import FlowProfile.Graph.Edit

/-!
Counting edges. Slots are numbered in program order, first the edge into the
entry of a function and then the edges of its blocks, so that a reader who has the
program finds the slot of each edge. A counter stands where only its edge leads:
at the end of the source if that has no other edge out, and otherwise at the start
of the target, once a critical edge has a block of its own.
-/

namespace FlowProfile

attribute [local instance] natZero

/-- A number that has to fit a word of 32 bits. -/
def narrow (n : Nat) (cause : Cause) : Outcome Nat :=
  if n < UInt32.size then .ok n else .fail cause

namespace Function

/-- The edges of the first `limit` blocks, in order. -/
def edges (f : Function) (limit : Nat) : List (BlockId × Nat) :=
  (f.blocks.take limit).zipIdx.flatMap fun (block, b) =>
    (List.range block.terminator.successors.length).map (b, ·)

def countEdge (counters : String) (f : Function) (edge : BlockId × Nat) (slot : Nat) :
    Outcome Function := do
  let (b, succ) := edge
  let (f, _) ← f.splitCritical b succ
  let targets := (← f.block b).terminator.successors
  if targets.length = 1 then f.insertAtEnd b (.increment counters slot)
  else match targets[succ]? with
    | some dest => f.insertAtStart dest (.increment counters slot)
    | none => .fail (.successorLost succ b)

/-- Counts the given edges in consecutive slots. -/
def countEdgesFrom (counters : String) (f : Function) :
    (edges : List (BlockId × Nat)) → (slot : Nat) → Outcome Function
  | [], _ => .ok f
  | edge :: rest, slot => do
    (← f.countEdge counters edge slot).countEdgesFrom counters rest (slot + 1)

/-- Counts the entry in `slot` and the edges of the first `limit` blocks in the slots after it. -/
def countEdges (counters : String) (f : Function) (limit slot : Nat) : Outcome Function := do
  let edges := f.edges limit
  (← f.insertAtStart 0 (.increment counters slot)).countEdgesFrom counters edges (slot + 1)

end Function

/-- The slots of a function of which the first `limit` blocks are counted. -/
def Function.countedSlots (f : Function) (limit : Nat) : Nat :=
  if f.isDeclaration then 0 else 1 + (f.edges limit).length

/-- Counts the edges of each function, and tells the first slot that is left. -/
def countFunctions (counters : String) :
    List (Function × Nat) → (slot : Nat) → Outcome (List Function × Nat)
  | [], slot => .ok ([], slot)
  | (f, limit) :: rest, slot => do
    let counted ← if f.isDeclaration then pure f else f.countEdges counters limit slot
    let (others, last) ← countFunctions counters rest (slot + f.countedSlots limit)
    return (counted :: others, last)

/-- Counts the edges of the blocks that each function had at first. -/
def Program.countEdges (p : Program) (blocks : List Nat) (counters : String) : Outcome Program := do
  let functions := p.functions.zip blocks
  let reserved := (functions.map fun (f, limit) => f.countedSlots limit).sum
  let len ← narrow reserved (.tooManyEdges reserved)
  let p ← p.declare ⟨counters, .u64, len, 0⟩
  let (counted, inserted) ← countFunctions counters functions 0
  Outcome.require (inserted = reserved) (.edgesMiscounted inserted reserved)
  return { p with functions := counted }

end FlowProfile
