/-!
# Binary floating-point formats

A format is given by the widths of its exponent and fraction fields. A *magnitude* is a bit
pattern without its sign bit, read as a natural number. Magnitudes are ordered as the numbers
they stand for, and `nearest` rounds an exact quotient to the nearest magnitude, ties to even.
All of this is integer arithmetic, so it can be reasoned about without any floating-point unit.
-/

set_option autoImplicit false

namespace QueryEngine

/-- The field widths of a binary format: a sign bit, then exponent bits, then fraction bits. -/
structure BinaryFormat where
  exponentBits : Nat
  fractionBits : Nat
deriving DecidableEq, Repr

namespace BinaryFormat

/-- Single precision, 32 bits wide. -/
def single : BinaryFormat := ⟨8, 23⟩

/-- Double precision, 64 bits wide. -/
def double : BinaryFormat := ⟨11, 52⟩

variable (f : BinaryFormat)

def width : Nat := 1 + f.exponentBits + f.fractionBits

/-- The weight of the sign bit, one more than the largest magnitude. -/
def signWeight : Nat := Nat.pow 2 (f.exponentBits + f.fractionBits)

/-- The magnitude of infinity. Every larger magnitude is a NaN. -/
def infinity : Nat := (Nat.pow 2 f.exponentBits - 1) * Nat.pow 2 f.fractionBits

/-- The fraction bit that tells a quiet NaN from a signalling one. -/
def quietBit : Nat := Nat.pow 2 (f.fractionBits - 1)

/-- The exponent of the last place of the smallest numbers. -/
def leastScale : Int := 2 - (Nat.pow 2 (f.exponentBits - 1) : Nat) - f.fractionBits

/-- A finite magnitude stands for `significand * 2 ^ scale`. -/
def significand (magnitude : Nat) : Nat :=
  if magnitude < Nat.pow 2 f.fractionBits then magnitude
  else Nat.pow 2 f.fractionBits + magnitude % Nat.pow 2 f.fractionBits

/-- The exponent of the last place of a finite magnitude. -/
def scale (magnitude : Nat) : Int :=
  f.leastScale + ((magnitude / Nat.pow 2 f.fractionBits - 1 : Nat) : Int)

/-- `2 ^ e` as a quotient of two naturals. -/
def powerOfTwo (e : Int) : Nat × Nat := (Nat.pow 2 e.toNat, Nat.pow 2 (-e).toNat)

/-- The value of a finite magnitude as a quotient of two naturals. -/
def quotient (magnitude : Nat) : Nat × Nat :=
  let p := powerOfTwo (f.scale magnitude)
  (f.significand magnitude * p.1, p.2)

/-- The largest `e` with `2 ^ e ≤ num / den`, for positive `num` and `den`. -/
def exponentOf (num den : Nat) : Int :=
  let guess : Int := (num.log2 : Int) - den.log2
  let p := powerOfTwo guess
  if den * p.1 ≤ num * p.2 then guess else guess - 1

/-- Rounds the quotient `num / den` to the nearest natural, a tie to the even one. -/
def divideToEven (num den : Nat) : Nat :=
  let q := num / den
  let twice := 2 * (num % den)
  if twice > den ∨ (twice = den ∧ q % 2 = 1) then q + 1 else q

/-- The magnitude nearest to `num / den`, a tie to the even one; quotients beyond the largest
finite number by half a last place or more give infinity. -/
def nearest (num den : Nat) : Nat :=
  if num = 0 then 0
  else
    let s := max (exponentOf num den - f.fractionBits) f.leastScale
    let p := powerOfTwo s
    let rounded := divideToEven (num * p.2) (den * p.1)
    min ((s - f.leastScale).toNat * Nat.pow 2 f.fractionBits + rounded) f.infinity

end BinaryFormat

end QueryEngine
