import QueryEngine.Binary.Number

/-!
# Floating-point arithmetic

Sums, differences, products, quotients and roots are correctly rounded by the floating-point
unit, which sees no NaN: an operand that is a NaN is handed on, the left one first, and an
operation that has no result gives the invalid pattern.
-/

set_option autoImplicit false

namespace QueryEngine

/-- The operations of a floating-point unit on operands that are not NaNs. -/
class FloatingUnit (f : BinaryFormat) where
  add : Binary f → Binary f → Binary f
  sub : Binary f → Binary f → Binary f
  mul : Binary f → Binary f → Binary f
  div : Binary f → Binary f → Binary f
  sqrt : Binary f → Binary f

namespace Binary

def toFloat32 (x : Binary32) : Float32 := Float32.ofBits (UInt32.ofNat x.toNat)

def ofFloat32 (x : Float32) : Binary32 := ⟨BitVec.ofNat _ x.toBits.toNat⟩

def toFloat64 (x : Binary64) : Float := Float.ofBits (UInt64.ofNat x.toNat)

def ofFloat64 (x : Float) : Binary64 := ⟨BitVec.ofNat _ x.toBits.toNat⟩

instance : FloatingUnit .single where
  add x y := ofFloat32 (x.toFloat32 + y.toFloat32)
  sub x y := ofFloat32 (x.toFloat32 - y.toFloat32)
  mul x y := ofFloat32 (x.toFloat32 * y.toFloat32)
  div x y := ofFloat32 (x.toFloat32 / y.toFloat32)
  sqrt x := ofFloat32 x.toFloat32.sqrt

instance : FloatingUnit .double where
  add x y := ofFloat64 (x.toFloat64 + y.toFloat64)
  sub x y := ofFloat64 (x.toFloat64 - y.toFloat64)
  mul x y := ofFloat64 (x.toFloat64 * y.toFloat64)
  div x y := ofFloat64 (x.toFloat64 / y.toFloat64)
  sqrt x := ofFloat64 x.toFloat64.sqrt

variable {f : BinaryFormat}

/-- The result of an operation, with one pattern for every NaN that arises anew. -/
def settled (r : Binary f) : Binary f := if r.isNaN then invalid else r

/-- Lifts an operation on numbers to all patterns. -/
def combine (op : Binary f → Binary f → Binary f) (x y : Binary f) : Binary f :=
  if x.isNaN then x.quieted else if y.isNaN then y.quieted else (op x y).settled

variable [FloatingUnit f]

instance : Add (Binary f) := ⟨combine FloatingUnit.add⟩
instance : Sub (Binary f) := ⟨combine FloatingUnit.sub⟩
instance : Mul (Binary f) := ⟨combine FloatingUnit.mul⟩
instance : Div (Binary f) := ⟨combine FloatingUnit.div⟩

def sqrt (x : Binary f) : Binary f :=
  if x.isNaN then x.quieted else (FloatingUnit.sqrt x).settled

/-- The binary logarithm in single precision. -/
def log2 (x : Binary32) : Binary32 :=
  if x.isNaN then x.quieted else (ofFloat32 x.toFloat32.log2).settled

end Binary

end QueryEngine
