import QueryEngine.Binary.Number
import QueryEngine.Hash.WordMix

/-!
# Values

A value is null, a scalar, a text or a dense vector. There are three ways to compare two values:
`compare?` follows query semantics, where null compares with nothing; `sortCompare` is the order
sorts use, with nulls first; and equality of values is equality bit for bit, which set operators
and hash indexes use.
-/

set_option autoImplicit false

namespace QueryEngine

inductive Value where
  | null
  | bool (b : Bool)
  | long (n : Int64)
  | float (x : Binary32)
  | double (x : Binary64)
  | text (s : String)
  | floatVector (xs : List Binary32)
  | doubleVector (xs : List Binary64)
deriving DecidableEq, Inhabited

/-- Compares two lists place by place; of two lists that agree the shorter comes first. -/
def compareLists {α : Type} (cmp : α → α → Ordering) : List α → List α → Ordering
  | [], [] => .eq
  | [], _ :: _ => .lt
  | _ :: _, [] => .gt
  | x :: xs, y :: ys => (cmp x y).then (compareLists cmp xs ys)

/-- Whether two lists have the same length and agree place by place. -/
def agree {α : Type} (eq : α → α → Bool) : List α → List α → Bool
  | [], [] => true
  | x :: xs, y :: ys => eq x y && agree eq xs ys
  | _, _ => false

namespace Value

def isNull : Value → Bool
  | null => true
  | _ => false

/-- The name of a value's kind in error messages. -/
def kindName : Value → String
  | null => "null"
  | bool _ => "bool"
  | long _ => "long"
  | float _ => "float"
  | double _ => "double"
  | text _ => "string"
  | floatVector _ => "float_vector"
  | doubleVector _ => "double_vector"

/-- The number of components of a vector; scalars have one. -/
def logicalSize : Value → Nat
  | floatVector xs => xs.length
  | doubleVector xs => xs.length
  | _ => 1

/-- A scalar read as a number in double precision. -/
def number? : Value → Option Binary64
  | long n => some (.ofInt n.toInt)
  | float x => some x.widen
  | double x => some x
  | bool b => some (.ofNat b.toNat)
  | _ => none

/-- The place of a value's kind among the kinds; the number types share one place. -/
def kindRank : Value → UInt8
  | null => 0
  | bool _ => 1
  | long _ => 2
  | float _ => 2
  | double _ => 2
  | text _ => 3
  | floatVector _ => 4
  | doubleVector _ => 5

/-- Comparison in queries. Null compares with nothing, numbers of different types compare
numerically, and vectors are only ever equal. -/
def compare? : Value → Value → Option Ordering
  | null, _ => none
  | _, null => none
  | long a, long b => some (compare a.toInt b.toInt)
  | text a, text b => some (compare a b)
  | bool a, bool b => some (compare a.toNat b.toNat)
  | floatVector a, floatVector b => if agree Binary.numericEq a b then some .eq else none
  | doubleVector a, doubleVector b => if agree Binary.numericEq a b then some .eq else none
  | a, b =>
    match a.number?, b.number? with
    | some x, some y => x.compare? y
    | _, _ => none

/-- Comparison in sorts: nulls first, numbers by the total order of double precision, vectors
place by place, and otherwise by kind. -/
def sortCompare : Value → Value → Ordering
  | null, null => .eq
  | null, _ => .lt
  | _, null => .gt
  | long a, long b => compare a.toInt b.toInt
  | text a, text b => compare a b
  | bool a, bool b => compare a.toNat b.toNat
  | floatVector a, floatVector b => compareLists Binary.totalCompare a b
  | doubleVector a, doubleVector b => compareLists Binary.totalCompare a b
  | a, b =>
    match a.number?, b.number? with
    | some x, some y => x.totalCompare y
    | _, _ => compare a.kindRank b.kindRank

/-- Equality as numbers: of one kind, zeros equal to each other and a NaN unequal to itself. -/
def numericEq : Value → Value → Bool
  | null, null => true
  | bool a, bool b => a == b
  | long a, long b => a == b
  | float a, float b => a.numericEq b
  | double a, double b => a.numericEq b
  | text a, text b => a == b
  | floatVector a, floatVector b => agree Binary.numericEq a b
  | doubleVector a, doubleVector b => agree Binary.numericEq a b
  | _, _ => false

/-! ## Hashing -/

/-- What a value feeds to a hash function. -/
inductive HashPiece where
  | byte (b : UInt8)
  | word32 (w : UInt32)
  | word64 (w : UInt64)
  | bytes (bs : List UInt8)
deriving DecidableEq

/-- The pieces that a value feeds after its kind. -/
def payloadPieces : Value → List HashPiece
  | null => []
  | bool b => [.byte b.toUInt8]
  | long n => [.word64 n.toUInt64]
  | float x => [.word32 (UInt32.ofNat x.toNat)]
  | double x => [.word64 (UInt64.ofNat x.toNat)]
  | text s => [.bytes (utf8Bytes s), .byte 0xff]
  | floatVector xs => xs.map fun x => .word32 (UInt32.ofNat x.toNat)
  | doubleVector xs => xs.map fun x => .word64 (UInt64.ofNat x.toNat)

def hashPieces (v : Value) : List HashPiece := .byte v.kindRank :: v.payloadPieces

/-- Mixes one piece into a word hash. -/
def HashPiece.mix (h : UInt64) : HashPiece → UInt64
  | byte b => WordMix.add h b.toUInt64
  | word32 w => WordMix.add h w.toUInt64
  | word64 w => WordMix.add h w
  | bytes bs => WordMix.addBytes h bs

/-- The word hash of a value. -/
def wordHash (v : Value) : UInt64 := v.hashPieces.foldl HashPiece.mix 0

end Value

end QueryEngine
