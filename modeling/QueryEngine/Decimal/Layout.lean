import QueryEngine.Decimal.Shortest

/-!
# Texts of floating-point numbers

A text is laid out from the shortest decimal by a `NumberLayout`, which fixes where positional
writing ends and how exponents and whole numbers look.
-/

set_option autoImplicit false

namespace QueryEngine

/-- How numbers are written. -/
structure NumberLayout where
  tie : TieRule
  /-- Numbers `0.d₁d₂… * 10 ^ p` are positional for `p` between these bounds, or always. -/
  positional : Option (Int × Int)
  /-- Whole numbers end in `.0`. -/
  wholePoint : Bool
  /-- Exponents above zero carry a plus sign. -/
  plus : Bool
  nan : String
  infinity : String

namespace NumberLayout

/-- Positional throughout, whole numbers without a point. -/
def plain : NumberLayout := ⟨.up, none, false, false, "NaN", "inf"⟩

/-- Components of a vector: positional from `0.0001` up to `1e16`, always with a point. -/
def component : NumberLayout := ⟨.up, some (-3, 16), true, false, "NaN", "inf"⟩

/-- Double precision in JSON: positional from `0.00001` up to `1e16`. -/
def jsonDouble : NumberLayout := ⟨.even, some (-4, 16), true, true, "null", "null"⟩

/-- Single precision in JSON: positional from `0.000001` up to `1e13`. -/
def jsonSingle : NumberLayout := ⟨.even, some (-5, 13), true, true, "null", "null"⟩

/-- TOML documents: positional throughout, always with a point. -/
def toml : NumberLayout := ⟨.up, none, true, false, "nan", "inf"⟩

end NumberLayout

/-- `n` zeros. -/
def zeros (n : Nat) : List Char := List.replicate n '0'

namespace Decimal

variable (d : Decimal)

def digitChars : List Char := Nat.toDigits 10 d.digits

/-- The exponent `p` for which the number is `0.d₁d₂… * 10 ^ p`. -/
def point : Int := d.digitChars.length + d.exponent

def positionalChars (wholePoint : Bool) : List Char :=
  let ds := d.digitChars
  if 0 ≤ d.exponent then
    ds ++ zeros d.exponent.toNat ++ (if wholePoint then ['.', '0'] else [])
  else if 0 < d.point then ds.take d.point.toNat ++ '.' :: ds.drop d.point.toNat
  else '0' :: '.' :: zeros (-d.point).toNat ++ ds

def exponentChars (plus : Bool) : List Char :=
  let e := d.point - 1
  let lead := match d.digitChars with
    | first :: second :: rest => first :: '.' :: second :: rest
    | short => short
  let sign := if e < 0 then ['-'] else if plus then ['+'] else []
  lead ++ 'e' :: sign ++ Nat.toDigits 10 e.natAbs

end Decimal

namespace NumberLayout

variable (l : NumberLayout)

def decimalChars (d : Decimal) : List Char :=
  match l.positional with
  | none => d.positionalChars l.wholePoint
  | some (least, greatest) =>
    if d.digits = 0 ∨ (least ≤ d.point ∧ d.point ≤ greatest) then d.positionalChars l.wholePoint
    else d.exponentChars l.plus

/-- The text of a number; NaNs are written without a sign. -/
def format {f : BinaryFormat} (x : Binary f) : String :=
  if x.isNaN then l.nan
  else
    let sign := if x.isNegative then "-" else ""
    if x.isFinite then sign ++ String.ofList (l.decimalChars (x.shortest l.tie))
    else sign ++ l.infinity

end NumberLayout

end QueryEngine
