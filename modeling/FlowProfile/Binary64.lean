/-!
Numbers in binary64, held by their bits, so that every value, each NaN included,
can be stored, compared and written back unchanged.
-/

namespace FlowProfile

structure Binary64 where
  bits : UInt64
deriving DecidableEq, Repr

namespace Binary64

def toFloat (x : Binary64) : Float := Float.ofBits x.bits

def isNaN (x : Binary64) : Bool := (x.bits &&& 0x7FFFFFFFFFFFFFFF) > 0x7FF0000000000000

def isNegative (x : Binary64) : Bool := x.bits >>> 63 == 1

/-- The eleven exponent bits, all of them set for an infinity and a NaN. -/
def exponentBits (x : Binary64) : Nat := ((x.bits >>> 52) &&& 0x7FF).toNat

def fractionBits (x : Binary64) : Nat := (x.bits &&& 0xFFFFFFFFFFFFF).toNat

def isFinite (x : Binary64) : Bool := x.exponentBits < 0x7FF

/-- The NaN of an operation that has no NaN among its operands. -/
def nan : Binary64 := ⟨0xFFF8000000000000⟩

/-- The same NaN with its quiet bit set. -/
def quiet (x : Binary64) : Binary64 := ⟨x.bits ||| 0x0008000000000000⟩

/-- The sign of a NaN is lost in a `Float`, so `nan` stands for any. -/
def ofFloat (x : Float) : Binary64 := if x.isNaN then nan else ⟨x.toBits⟩

/-- The first operand that is NaN, made quiet, is the result of any operation. -/
def operate (op : Float → Float → Float) (x y : Binary64) : Binary64 :=
  if x.isNaN then x.quiet
  else if y.isNaN then y.quiet
  else ofFloat (op x.toFloat y.toFloat)

instance : Add Binary64 := ⟨operate (· + ·)⟩
instance : Sub Binary64 := ⟨operate (· - ·)⟩
instance : Mul Binary64 := ⟨operate (· * ·)⟩
instance : Div Binary64 := ⟨operate (· / ·)⟩

def zero : Binary64 := ⟨0⟩

def negZero : Binary64 := ⟨0x8000000000000000⟩

def infinity : Binary64 := ⟨0x7FF0000000000000⟩

/-- The nearest number, the even one of two equally near. -/
def ofUInt64 (n : UInt64) : Binary64 := ofFloat n.toFloat

instance (n : Nat) : OfNat Binary64 n := ⟨ofUInt64 n.toUInt64⟩

def log2 (x : Binary64) : Binary64 := ofFloat x.toFloat.log2

/-- Equality of numbers: the two zeros agree, and no NaN agrees with anything. -/
def agrees (x y : Binary64) : Bool := x.toFloat == y.toFloat

def neg (x : Binary64) : Binary64 := ⟨x.bits ^^^ 0x8000000000000000⟩

instance : Neg Binary64 := ⟨neg⟩

/-- The nearest number, the even one of two equally near. -/
def ofInt64 (i : Int64) : Binary64 :=
  if i < 0 then -ofUInt64 (-i).toUInt64 else ofUInt64 i.toUInt64

theorem ofInt64_zero : ofInt64 0 = zero := by decide

/-- The integer that has no opposite, and one between two numbers. -/
example : ofInt64 Int64.minValue = ⟨0xC3E0000000000000⟩ ∧
    ofInt64 (-9007199254740995) = ⟨0xC340000000000002⟩ := by decide

/-- Sums from the left. The sum of nothing is the zero that changes no other number. -/
def sum (xs : List Binary64) : Binary64 := xs.foldl (· + ·) negZero

end Binary64

end FlowProfile
