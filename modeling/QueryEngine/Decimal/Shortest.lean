import QueryEngine.Binary.Number

/-!
# Shortest decimals

`Binary.shortest` finds the decimal with the fewest digits among those that round to a given
number, and of these the nearest. It compares exact integers: the reals that round to a number
form an interval, and a decimal grid meets that interval exactly when one of the two grid points
next to the number lies in it.
-/

set_option autoImplicit false

namespace QueryEngine

/-- The number `digits * 10 ^ exponent`. -/
structure Decimal where
  digits : Nat
  exponent : Int
deriving DecidableEq

/-- Which of two equally near grid points is taken. -/
inductive TieRule where
  | up
  | even
deriving DecidableEq

/-- The reals that round to a number, with its place among them, in quarters of the last place;
`closed` tells whether the ends belong to the interval. -/
structure RoundingInterval where
  low : Nat
  center : Nat
  high : Nat
  closed : Bool
  /-- The exponent of a quarter of the last place. -/
  unit : Int

namespace RoundingInterval

/-- The interval of a positive finite magnitude. Below a power of two the neighbours lie closer. -/
def ofMagnitude (f : BinaryFormat) (magnitude : Nat) : RoundingInterval :=
  let m := f.significand magnitude
  let s := f.scale magnitude
  let narrow := m == Nat.pow 2 f.fractionBits && f.leastScale < s
  { low := if narrow then 4 * m - 1 else 4 * m - 2
    center := 4 * m
    high := 4 * m + 2
    closed := m % 2 == 0
    unit := s - 2 }

variable (r : RoundingInterval)

/-- Whether `n * 10 ^ k` lies in the interval. -/
def contains (k : Int) (n : Nat) : Bool :=
  let p := BinaryFormat.powerOfTwo r.unit
  let point := n * Nat.pow 10 k.toNat * p.2
  let low := r.low * p.1 * Nat.pow 10 (-k).toNat
  let high := r.high * p.1 * Nat.pow 10 (-k).toNat
  if r.closed then low ≤ point && point ≤ high else low < point && point < high

/-- The point of the grid `10 ^ k` to take for the center, if one lies in the interval. -/
def onGrid (tie : TieRule) (k : Int) : Option Nat :=
  let p := BinaryFormat.powerOfTwo r.unit
  let num := r.center * p.1 * Nat.pow 10 (-k).toNat
  let den := Nat.pow 10 k.toNat * p.2
  let below := num / den
  let twice := 2 * (num % den)
  let above :=
    twice > den || (twice == den && (match tie with | .up => true | .even => below % 2 == 1))
  match r.contains k below, r.contains k (below + 1) with
  | true, true => some (if above then below + 1 else below)
  | true, false => some below
  | false, true => some (below + 1)
  | false, false => none

end RoundingInterval

namespace Binary

variable {f : BinaryFormat}

/-- The shortest decimal that rounds to a finite number, its sign left aside. Grids are tried from
coarse to fine; seventeen digits tell any two double-precision numbers apart. -/
def shortest (tie : TieRule) (x : Binary f) : Decimal :=
  if x.isZero then ⟨0, 0⟩
  else
    let r := RoundingInterval.ofMagnitude f x.magnitude
    let top := ((r.center.log2 : Int) + r.unit + 1) * 30103 / 100000 + 1
    let hit := (List.range 22).findSome? fun (i : Nat) =>
      (r.onGrid tie (top - i)).map fun n => (⟨n, top - i⟩ : Decimal)
    hit.getD ⟨0, 0⟩

end Binary

end QueryEngine
