import QueryEngine.Binary.Arithmetic

/-!
# Selectivities

A selectivity is the fraction of rows that pass a predicate. Predicates are taken as independent.
-/

set_option autoImplicit false

namespace QueryEngine

/-- A fraction of rows; `ofFraction` keeps it between zero and one. -/
structure Selectivity where
  value : Binary32
deriving DecidableEq

namespace Selectivity

/-- Every row passes. -/
def all : Selectivity := ⟨.ofNat 1⟩

/-- No row passes. -/
def nothing : Selectivity := ⟨.zero⟩

/-- The estimate where nothing is known. -/
def unknown : Selectivity := ⟨.ofDecimal false 25 (-2)⟩

/-- Moves a number into the unit interval; a NaN tells nothing. -/
def ofFraction (x : Binary32) : Selectivity :=
  if x.isNaN then unknown else ⟨x.clamp .zero (.ofNat 1)⟩

/-- Both of two predicates hold. -/
def both (a b : Selectivity) : Selectivity := ofFraction (a.value * b.value)

/-- One of two predicates holds. -/
def either (a b : Selectivity) : Selectivity :=
  ofFraction (a.value + b.value - a.value * b.value)

def complement (a : Selectivity) : Selectivity := ofFraction (.ofNat 1 - a.value)

/-- The expected number of rows out of `rows`, never more than these. -/
def apply (a : Selectivity) (rows : UInt64) : UInt64 :=
  min ((Binary.ofNat rows.toNat : Binary64) * a.value.widen).roundToCount rows

end Selectivity

end QueryEngine
