import QueryEngine.Value.Basic

/-!
# Columns

A column has a qualified name, a type and a flag for nulls; two columns are the same when all
three agree. Columns are ordered by name, then by the text of their type, then nullable last.
-/

set_option autoImplicit false

namespace QueryEngine

/-- The declared type of a column; vector types carry their width. -/
inductive ColumnType where
  | boolean
  | long
  | float
  | double
  | text
  | floatVector (dims : Nat)
  | doubleVector (dims : Nat)
deriving DecidableEq, Inhabited

/-- The width in bytes assumed for a text. -/
def assumedTextWidth : Nat := 32

/-- A size in bytes is a word of 64 bits and wraps around. -/
def sizeWord (bytes : Nat) : Nat := bytes % UInt64.size

namespace ColumnType

/-- The estimated size of one value in bytes. -/
def physicalSize : ColumnType → Nat
  | boolean => 1
  | long => 8
  | float => 4
  | double => 8
  | text => assumedTextWidth
  | floatVector dims => sizeWord (4 * dims)
  | doubleVector dims => sizeWord (8 * dims)

/-- The number of components of a vector type; scalar types have one. -/
def logicalSize : ColumnType → Nat
  | floatVector dims => dims
  | doubleVector dims => dims
  | _ => 1

def isNumeric : ColumnType → Bool
  | long => true
  | float => true
  | double => true
  | _ => false

def isVector : ColumnType → Bool
  | floatVector _ => true
  | doubleVector _ => true
  | _ => false

/-- Whether a column of this type may hold the value; null fits every type. -/
def accepts : ColumnType → Value → Bool
  | _, .null => true
  | boolean, .bool _ => true
  | long, .long _ => true
  | float, .float _ => true
  | double, .double _ => true
  | text, .text _ => true
  | floatVector dims, .floatVector xs => xs.length == dims
  | doubleVector dims, .doubleVector xs => xs.length == dims
  | _, _ => false

def display : ColumnType → String
  | boolean => "BOOLEAN"
  | long => "LONG"
  | float => "FLOAT"
  | double => "DOUBLE"
  | text => "STRING"
  | floatVector dims => s!"FLOAT_VECTOR({dims})"
  | doubleVector dims => s!"DOUBLE_VECTOR({dims})"

/-- Types are ordered by their texts. -/
def order (a b : ColumnType) : Ordering := compare a.display b.display

end ColumnType

/-- The type of a value; null has none. -/
def Value.type? : Value → Option ColumnType
  | null => none
  | bool _ => some .boolean
  | long _ => some .long
  | float _ => some .float
  | double _ => some .double
  | text _ => some .text
  | floatVector xs => some (.floatVector xs.length)
  | doubleVector xs => some (.doubleVector xs.length)

structure Column where
  name : String
  type : ColumnType
  nullable : Bool
deriving DecidableEq, Inhabited

namespace Column

/-- The part of the name after the last dot. -/
def simpleName (c : Column) : String :=
  String.ofList (c.name.toList.reverse.takeWhile (· != '.')).reverse

/-- Whether `name` is the column's qualified or simple name. -/
def isNamed (c : Column) (name : String) : Bool := c.name == name || c.simpleName == name

def display (c : Column) : String := s!"{c.name}:{c.type.display}"

def order (a b : Column) : Ordering :=
  (compare a.name b.name).then ((a.type.order b.type).then (compare a.nullable.toNat b.nullable.toNat))

/-- Whether a null or a value of the column's type. -/
def accepts (c : Column) (v : Value) : Bool := c.type.accepts v && (c.nullable || !v.isNull)

/-- Inserts a column into an ascending list without repetitions. -/
def insertSorted (c : Column) : List Column → List Column
  | [] => [c]
  | d :: rest =>
    match c.order d with
    | .lt => c :: d :: rest
    | .eq => d :: rest
    | .gt => d :: insertSorted c rest

/-- The columns of a list in ascending order, each once. -/
def sortedSet (cs : List Column) : List Column := cs.foldl (fun acc c => c.insertSorted acc) []

/-- The estimated size in bytes of one value of every column. -/
def rowWidth (cs : List Column) : Nat :=
  sizeWord (cs.foldl (fun n c => n + c.type.physicalSize) 0)

/-- The names of columns, separated by commas. -/
def nameList (cs : List Column) : String := ", ".intercalate (cs.map (·.name))

end Column

end QueryEngine
