import QueryEngine.Binary.Format

/-!
# Floating-point numbers as bit patterns

A number is its bit pattern, so that two numbers are equal exactly when every bit agrees: a NaN
equals itself and the two zeros differ. Numeric comparison and the total order are functions of
the pattern. Conversions go through the exact value and `BinaryFormat.nearest`.
-/

set_option autoImplicit false

namespace QueryEngine

/-- A number of the given format, held as its bit pattern. -/
structure Binary (f : BinaryFormat) where
  bits : BitVec f.width
deriving DecidableEq

abbrev Binary32 := Binary BinaryFormat.single
abbrev Binary64 := Binary BinaryFormat.double

namespace Binary

variable {f : BinaryFormat}

instance : Inhabited (Binary f) := ⟨⟨0⟩⟩

/-- The number with the given sign and magnitude. -/
def ofMagnitude (negative : Bool) (magnitude : Nat) : Binary f :=
  ⟨BitVec.ofNat _ (if negative then f.signWeight + magnitude else magnitude)⟩

def toNat (x : Binary f) : Nat := x.bits.toNat

def magnitude (x : Binary f) : Nat := x.toNat % f.signWeight

def isNegative (x : Binary f) : Bool := f.signWeight ≤ x.toNat

def isNaN (x : Binary f) : Bool := f.infinity < x.magnitude

def isFinite (x : Binary f) : Bool := x.magnitude < f.infinity

def isZero (x : Binary f) : Bool := x.magnitude == 0

def zero : Binary f := ofMagnitude false 0

def infinity (negative : Bool) : Binary f := ofMagnitude negative f.infinity

/-- The pattern an operation without a result gives: a quiet NaN with the sign bit set. -/
def invalid : Binary f := ofMagnitude true (f.infinity + f.quietBit)

/-- A NaN with its quiet bit set, as arithmetic hands it on. -/
def quieted (x : Binary f) : Binary f := ⟨x.bits ||| BitVec.ofNat _ f.quietBit⟩

def negate (x : Binary f) : Binary f := ofMagnitude (!x.isNegative) x.magnitude

def abs (x : Binary f) : Binary f := ofMagnitude false x.magnitude

/-- The nearest number to `num / den`, with the given sign. -/
def ofQuotient (negative : Bool) (num den : Nat) : Binary f :=
  ofMagnitude negative (f.nearest num den)

def ofNat (n : Nat) : Binary f := ofQuotient false n 1

def ofInt (n : Int) : Binary f := ofQuotient (n < 0) n.natAbs 1

/-- The nearest number to `digits * 10 ^ exponent`, with the given sign. -/
def ofDecimal (negative : Bool) (digits : Nat) (exponent : Int) : Binary f :=
  ofQuotient negative (digits * Nat.pow 10 exponent.toNat) (Nat.pow 10 (-exponent).toNat)

/-! ## Order -/

/-- The place of a number on the signed scale of magnitudes; both zeros are at `0`. -/
def position (x : Binary f) : Int :=
  if x.isNegative then -(x.magnitude : Int) else x.magnitude

/-- The place of a bit pattern in the total order: negative NaNs first, then the negative
numbers, `-0`, `0`, the positive numbers, and positive NaNs last. -/
def rank (x : Binary f) : Int :=
  if x.isNegative then -(x.magnitude : Int) - 1 else x.magnitude

/-- Numeric comparison; nothing compares with a NaN. -/
def compare? (x y : Binary f) : Option Ordering :=
  if x.isNaN || y.isNaN then none else some (compare x.position y.position)

/-- Comparison in the total order of bit patterns. -/
def totalCompare (x y : Binary f) : Ordering := compare x.rank y.rank

/-- Numeric equality: a NaN is unequal to itself, the zeros are equal. -/
def numericEq (x y : Binary f) : Bool := x.compare? y == some .eq

def lt (x y : Binary f) : Bool := x.compare? y == some .lt

def le (x y : Binary f) : Bool :=
  match x.compare? y with
  | some .lt | some .eq => true
  | _ => false

/-- The larger of two numbers; a NaN gives way to the other operand. -/
def maximum (x y : Binary f) : Binary f :=
  if x.isNaN then y else if x.lt y then y else x

/-- The smaller of two numbers; a NaN gives way to the other operand. -/
def minimum (x y : Binary f) : Binary f :=
  if x.isNaN then y else if y.lt x then y else x

/-- Moves `x` into the interval from `low` to `high`; a NaN stays as it is. -/
def clamp (x low high : Binary f) : Binary f :=
  if x.lt low then low else if high.lt x then high else x

/-! ## Conversion -/

/-- The value of a finite number without its sign, as a quotient of two naturals. -/
def quotient (x : Binary f) : Nat × Nat := f.quotient x.magnitude

/-- The same number in another format, rounded to nearest. A NaN keeps its sign and as much of
its payload as fits, and becomes quiet. -/
def convert (g : BinaryFormat) (x : Binary f) : Binary g :=
  if x.isNaN then
    let payload := x.magnitude - f.infinity
    let moved := payload <<< (g.fractionBits - f.fractionBits) >>> (f.fractionBits - g.fractionBits)
    (ofMagnitude x.isNegative (g.infinity + moved)).quieted
  else if x.isFinite then ofQuotient x.isNegative x.quotient.1 x.quotient.2
  else infinity x.isNegative

def widen (x : Binary32) : Binary64 := x.convert .double

def narrow (x : Binary64) : Binary32 := x.convert .single

/-- Turns a number into a 64-bit count by `round`, which is given the exact quotient. Negative
numbers and NaNs give zero; what is too large gives the largest count. -/
def toCount (round : Nat → Nat → Nat) (x : Binary f) : UInt64 :=
  if x.isNaN || x.isNegative then 0
  else if x.isFinite then UInt64.ofNat (min (round x.quotient.1 x.quotient.2) (UInt64.size - 1))
  else UInt64.ofNat (UInt64.size - 1)

/-- The nearest count, a half going up. -/
def roundToCount (x : Binary f) : UInt64 :=
  x.toCount fun num den => (2 * num + den) / (2 * den)

/-- The least count that is not below the number. -/
def ceilToCount (x : Binary f) : UInt64 :=
  x.toCount fun num den => (num + den - 1) / den

end Binary

end QueryEngine
