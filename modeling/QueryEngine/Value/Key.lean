import QueryEngine.Value.Basic

/-!
# Rows of values as keys

Set operators and hash indexes find rows of values in hash tables. A key is equal to another one if
their values are the same bit by bit, and it feeds a hash function the number of its values and then
the pieces of each. What is made of the pieces is up to the hash function.
-/

set_option autoImplicit false

namespace QueryEngine

namespace Value

/-- Equality of floating-point numbers and vectors by their bits, and of other values as it is. -/
def sameAs : Value → Value → Bool
  | float a, float b => a.bits == b.bits
  | double a, double b => a.bits == b.bits
  | floatVector a, floatVector b => agree (fun x y => x.bits == y.bits) a b
  | doubleVector a, doubleVector b => agree (fun x y => x.bits == y.bits) a b
  | a, b => a.numericEq b

end Value

/-- A row of values as a key. -/
structure RowKey where
  values : List Value

namespace RowKey

instance : BEq RowKey := ⟨fun k l => agree Value.sameAs k.values l.values⟩

/-- The pieces that a key feeds to a hash function. -/
def pieces (k : RowKey) : List Value.HashPiece :=
  .word64 (UInt64.ofNat k.values.length) :: k.values.flatMap Value.hashPieces

end RowKey

/-- A hash function that takes in one piece at a time. -/
structure Hasher where
  State : Type
  start : State
  feed : State → Value.HashPiece → State
  finish : State → UInt64

namespace Hasher

/-- The word hash. -/
def wordMix : Hasher := ⟨UInt64, 0, Value.HashPiece.mix, id⟩

def hash (H : Hasher) (k : RowKey) : UInt64 := H.finish (k.pieces.foldl H.feed H.start)

@[reducible] def hashable (H : Hasher) : Hashable RowKey := ⟨H.hash⟩

end Hasher

end QueryEngine
