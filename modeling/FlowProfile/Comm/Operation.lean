import FlowProfile.Binary64

/-!
Message-passing operations, recognised by the name of the function that is called.
Each has two names, such as `MPI_Send` and `mpi_send_`.
-/

namespace FlowProfile.Comm

inductive Category where
  | pointToPoint
  | reduce
  | allReduce
  | collective
  | wait
  | setup
deriving DecidableEq, Repr

namespace Category

def name : Category → String
  | pointToPoint => "point-to-point"
  | reduce => "reduce"
  | allReduce => "all-reduce"
  | collective => "collective"
  | wait => "wait"
  | setup => "setup"

def all : List Category := [pointToPoint, reduce, allReduce, collective, wait, setup]

def ofName? (s : String) : Option Category := all.find? (·.name == s)

theorem ofName?_name (c : Category) : ofName? c.name = some c := by cases c <;> decide

/-- Has the category a price of its own? -/
def isModeled : Category → Bool
  | pointToPoint | reduce | allReduce | collective => true
  | wait | setup => false

/-- A reduction that all processes receive moves its payload twice. -/
def reduceConstant : Category → Binary64
  | allReduce => 2
  | _ => 1

end Category

structure Operation where
  stem : String
  category : Category
  /-- The places of the element count and of the datatype among the arguments. -/
  payload : Option (Nat × Nat)
deriving DecidableEq, Repr

namespace Operation

def all : List Operation :=
  [⟨"send", .pointToPoint, some (1, 2)⟩,
   ⟨"ssend", .pointToPoint, some (1, 2)⟩,
   ⟨"bsend", .pointToPoint, some (1, 2)⟩,
   ⟨"rsend", .pointToPoint, some (1, 2)⟩,
   ⟨"isend", .pointToPoint, some (1, 2)⟩,
   ⟨"recv", .pointToPoint, some (1, 2)⟩,
   ⟨"irecv", .pointToPoint, some (1, 2)⟩,
   ⟨"sendrecv", .pointToPoint, some (1, 2)⟩,
   ⟨"reduce", .reduce, some (2, 3)⟩,
   ⟨"allreduce", .allReduce, some (2, 3)⟩,
   ⟨"bcast", .collective, some (1, 2)⟩,
   ⟨"gather", .collective, some (1, 2)⟩,
   ⟨"scatter", .collective, some (1, 2)⟩,
   ⟨"allgather", .collective, some (1, 2)⟩,
   ⟨"alltoall", .collective, some (1, 2)⟩,
   ⟨"wait", .wait, none⟩,
   ⟨"waitall", .wait, none⟩,
   ⟨"barrier", .wait, none⟩,
   ⟨"init", .setup, none⟩,
   ⟨"finalize", .setup, none⟩,
   ⟨"comm_rank", .setup, none⟩,
   ⟨"comm_size", .setup, none⟩]

/-- Does the operation move bytes that a counter can follow? -/
def movesData (op : Operation) : Bool := op.category.isModeled && op.payload.isSome

def isRankQuery (op : Operation) : Bool := op.stem == "comm_rank"

end Operation

/-- The rest of a text after a beginning that it has. -/
def after? : (start : List Char) → List Char → Option (List Char)
  | [], cs => some cs
  | c :: start, d :: cs => if c = d then after? start cs else none
  | _ :: _, [] => none

theorem after?_eq_some_iff {start cs rest : List Char} :
    after? start cs = some rest ↔ cs = start ++ rest := by
  fun_induction after? start cs <;> grind

/-- The text before an underscore at its end. -/
def beforeUnderscore? (cs : List Char) : Option (List Char) :=
  if cs.getLast? = some '_' then some cs.dropLast else none

/-- The name without its binding: `MPI_` and then any case, or `mpi_` and an underscore at
the end. -/
def normalize? (callee : String) : Option String :=
  match after? "MPI_".toList callee.toList with
  | some rest => some (String.ofList (rest.map Char.toLower))
  | none =>
    ((after? "mpi_".toList callee.toList).bind beforeUnderscore?).map String.ofList

def Operation.lookup? (callee : String) : Option Operation := do
  let stem ← normalize? callee
  all.find? (·.stem == stem)

/-- Does the name begin like the rank query? -/
def isRankQuery (callee : String) : Bool :=
  (after? "mpi_comm_rank_".toList callee.toList).isSome ||
    (after? "MPI_Comm_rank".toList callee.toList).isSome

/-- The bytes of one element. A small power of two stands for itself, and an
unknown handle for one byte. -/
def datatypeSize (datatype : Int64) : UInt64 :=
  if datatype ∈ [0x4c000101, 0x4c000118, 0x4c000102, 0x4c00010d] then 1
  else if datatype ∈ [0x4c000203, 0x4c000204] then 2
  else if datatype ∈ [0x4c000405, 0x4c000406, 0x4c00040a, 0x4c00041b, 0x4c00041c] then 4
  else if datatype ∈ [0x4c000807, 0x4c000808, 0x4c00080b, 0x4c000809, 0x4c00080f] then 8
  else if datatype = 0x4c001023 then 16
  else if datatype ∈ [1, 2, 4, 8, 16] then datatype.toUInt64
  else 1

end FlowProfile.Comm
