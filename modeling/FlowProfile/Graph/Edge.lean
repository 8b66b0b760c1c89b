import FlowProfile.Graph.Basic

/-!
The edges of a function. An edge is a block and a place among its successors, so
that two edges may join the same two blocks.
-/

namespace FlowProfile

attribute [local instance] natZero

/-- The targets in the order of their edges, as often as they occur. -/
def Terminator.successors : Terminator → List BlockId
  | .br target => [target]
  | .condBr _ thenBlock elseBlock => [thenBlock, elseBlock]
  | .switch _ default cases => default :: cases.map (·.2)
  | .ret | .unreachable => []

/-- Sends one edge to another block, if the terminator has it. -/
def Terminator.redirect (t : Terminator) (succ : Nat) (dest : BlockId) : Terminator :=
  match t, succ with
  | .br _, 0 => .br dest
  | .condBr cond _ elseBlock, 0 => .condBr cond dest elseBlock
  | .condBr cond thenBlock _, 1 => .condBr cond thenBlock dest
  | .switch value _ cases, 0 => .switch value dest cases
  | .switch value default cases, i + 1 =>
    .switch value default (cases.modify i fun (case, _) => (case, dest))
  | t, _ => t

@[simp] theorem Terminator.successors_redirect (t : Terminator) (succ : Nat) (dest : BlockId) :
    (t.redirect succ dest).successors = t.successors.set succ dest := by
  cases t with
  | br target => cases succ <;> rfl
  | condBr cond thenBlock elseBlock => rcases succ with _ | _ | succ <;> rfl
  | switch value default cases =>
    cases succ with
    | zero => rfl
    | succ i =>
      simp only [redirect, successors, List.set_cons_succ, List.cons.injEq, true_and]
      induction cases generalizing i with
      | nil => simp
      | cons c cases ih => cases i <;> simp_all
  | ret => cases succ <;> rfl
  | unreachable => cases succ <;> rfl

namespace Function

def successors (f : Function) (b : BlockId) : List BlockId :=
  match f.blocks[b]? with
  | some block => block.terminator.successors
  | none => []

/-- The number of edges that enter a block. -/
def predecessorCount (f : Function) (b : BlockId) : Nat :=
  (f.blocks.map fun block => block.terminator.successors.count b).sum

/-- An edge is critical if its source has another edge out and its target another in. -/
def isCritical (f : Function) (b : BlockId) (succ : Nat) : Bool :=
  match (f.successors b)[succ]? with
  | some dest => 1 < (f.successors b).length && 1 < f.predecessorCount dest
  | none => false

end Function

/-- The slots that count the edges of a function: one for the edge into its entry,
and one for each edge of a block. -/
def Function.edgeSlots (f : Function) : Nat :=
  1 + (f.blocks.map (·.terminator.successors.length)).sum

def Program.edgeSlots (p : Program) : Nat :=
  (p.definedFunctions.map (·.1.edgeSlots)).sum

end FlowProfile
