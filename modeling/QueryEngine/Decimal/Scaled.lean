import QueryEngine.Binary.Arithmetic

/-!
# Decimals read by scaling

A decimal is read as a 64-bit significand, converted once and then multiplied or divided by a
power of ten. Each of the steps rounds, so the result may differ from the nearest number in its
last place.
-/

set_option autoImplicit false

namespace QueryEngine

/-- The largest significand that is kept exactly. -/
def largestSignificand : Nat := UInt64.size - 1

/-- Appends decimal digits to a significand for as long as it stays within 64 bits; the second
part holds the digits that are left. -/
def appendDigits (significand : Nat) : List Nat → Nat × List Nat
  | [] => (significand, [])
  | d :: rest =>
    if largestSignificand < significand * 10 + d then (significand, d :: rest)
    else appendDigits (significand * 10 + d) rest

namespace Binary

/-- The largest power of ten that is a finite number. -/
def largestPowerOfTen : Nat := 308

def powerOfTen (n : Nat) : Binary64 := ofNat (Nat.pow 10 n)

/-- Multiplies or divides by a power of ten; `none` when the product overflows. Exponents far below
zero are reached in strides, and three of them leave nothing of a 64-bit significand. -/
def scaleByTen (x : Binary64) (exponent : Int) : Nat → Option Binary64
  | 0 => some zero
  | strides + 1 =>
    if exponent.natAbs ≤ largestPowerOfTen then
      if 0 ≤ exponent then
        let y := x * powerOfTen exponent.natAbs
        if y.isFinite then some y else none
      else some (x / powerOfTen exponent.natAbs)
    else if x.isZero then some x
    else if 0 ≤ exponent then none
    else scaleByTen (x / powerOfTen largestPowerOfTen) (exponent + largestPowerOfTen) strides

/-- The number `significand * 10 ^ exponent`, read by scaling. -/
def ofScaled (significand : Nat) (exponent : Int) : Option Binary64 :=
  (ofNat significand : Binary64).scaleByTen exponent 5

end Binary

end QueryEngine
