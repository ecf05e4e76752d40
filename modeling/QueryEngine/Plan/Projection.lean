import QueryEngine.Column
import QueryEngine.Hash.Bytes

/-!
# Projections

A projection keeps columns of its input or sums the input up in a single row.
-/

set_option autoImplicit false

namespace QueryEngine

/-- The bytes of a text after their number. -/
def sizedBytes (s : String) : List UInt8 := littleEndian 8 s.utf8ByteSize ++ utf8Bytes s

inductive Projection where
  | select (columns : List Column)
  /-- The number of rows. -/
  | count
  /-- Whether there is a row. -/
  | nonempty
  | min (column : Column)
  | max (column : Column)
  | sum (column : Column)
  | mean (column : Column)
deriving DecidableEq

namespace Projection

def name : Projection → String
  | select _ => "SELECT"
  | count => "COUNT"
  | nonempty => "EXISTS"
  | min _ => "MIN"
  | max _ => "MAX"
  | sum _ => "SUM"
  | mean _ => "MEAN"

/-- Whether the input is summed up in a single row. -/
def isAggregate : Projection → Bool
  | select _ => false
  | _ => true

/-- A nullable column for the result of an aggregate over a column. -/
def resultColumn (aggregate : String) (c : Column) (type : ColumnType) : Column :=
  ⟨s!"{aggregate}({c.name})", type, true⟩

/-- The columns produced. -/
def columns : Projection → List Column
  | select cs => cs
  | count => [⟨"count", .long, false⟩]
  | nonempty => [⟨"exists", .boolean, false⟩]
  | min c => [resultColumn "min" c c.type]
  | max c => [resultColumn "max" c c.type]
  | sum c => [resultColumn "sum" c .double]
  | mean c => [resultColumn "mean" c .double]

/-- The columns of the input that are read. -/
def requires : Projection → List Column
  | select cs => cs
  | count => []
  | nonempty => []
  | min c => [c]
  | max c => [c]
  | sum c => [c]
  | mean c => [c]

/-- The projection with this name that reads these columns. -/
def ofColumns? (name : String) (columns : List Column) : Option Projection :=
  match name, columns with
  | "SELECT", cs => some (select cs)
  | "COUNT", _ => some count
  | "EXISTS", _ => some nonempty
  | "MIN", [c] => some (min c)
  | "MAX", [c] => some (max c)
  | "SUM", [c] => some (sum c)
  | "MEAN", [c] => some (mean c)
  | _, _ => none

theorem ofColumns?_requires (p : Projection) : ofColumns? p.name p.requires = some p := by
  cases p <;> rfl

def digestBytes (p : Projection) : List UInt8 :=
  sizedBytes p.name ++ p.requires.flatMap fun c => sizedBytes c.name

end Projection

end QueryEngine
