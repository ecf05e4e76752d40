import QueryEngine.Predicate.Basic
import QueryEngine.Cost.Basic

/-!
# Hash indexes

An index on one column lists, for every value of that column, the rows that have it. Values are
told apart bit by bit. The index answers equalities and lists of literals on its column.
-/

set_option autoImplicit false

namespace QueryEngine

structure HashIndex where
  name : String
  column : Column
  /-- The rows of each value in the order in which they came; no value is listed without rows. -/
  entries : List (Value × List RowId)
  /-- The number of rows in the index. -/
  rows : Nat
deriving DecidableEq

namespace HashIndex

def empty (name : String) (column : Column) : HashIndex := ⟨name, column, [], 0⟩

variable (x : HashIndex)

/-- The rows that have a value. -/
def lookup (v : Value) : List RowId := (x.entries.lookup v).getD []

/-- Lists a row under a value, last among those that have it. -/
def addEntry (v : Value) (row : RowId) : List (Value × List RowId) → List (Value × List RowId)
  | [] => [(v, [row])]
  | (w, ids) :: rest => if w = v then (w, ids ++ [row]) :: rest else (w, ids) :: addEntry v row rest

/-- Strikes a row from under a value, and the value if this was its last row. -/
def removeEntry (v : Value) (row : RowId) : List (Value × List RowId) → List (Value × List RowId)
  | [] => []
  | (w, ids) :: rest =>
    if w = v then
      let left := ids.filter (· ≠ row)
      if left.isEmpty then rest else (w, left) :: rest
    else (w, ids) :: removeEntry v row rest

def add (v : Value) (row : RowId) : HashIndex :=
  { x with entries := addEntry v row x.entries, rows := x.rows + 1 }

def remove (v : Value) (row : RowId) : HashIndex :=
  { x with entries := removeEntry v row x.entries, rows := x.rows - 1 }

end HashIndex

/-! ## Look-ups -/

def Binding.isLiteral : Binding → Bool
  | literal .. => true
  | _ => false

/-- The literals that an index on `column` looks up for a predicate, if it can answer it. -/
def Predicate.lookups? (column : Column) : Predicate → Option (List Binding)
  | atom (.relation .equal (.column c) v) false =>
    if c = column ∧ v.isLiteral then some [v] else none
  | atom (.oneOf (.column c) list) false =>
    if c = column ∧ list.all Binding.isLiteral then some list else none
  | _ => none

namespace HashIndex

variable (x : HashIndex)

def canProcess (p : Predicate) : Bool := (p.lookups? x.column).isSome

/-- The number of values looked up for a predicate. -/
def lookupCount (p : Predicate) : Nat := ((p.lookups? x.column).map List.length).getD 1

/-- The expected number of rows for a predicate. -/
def estimateMatches (p : Predicate) : UInt64 :=
  UInt64.ofNat (max (x.rows / max x.entries.length 1) 1 * x.lookupCount p)

/-- The expected cost of answering a predicate. -/
def cost (p : Predicate) : Cost :=
  let lookups : Binary32 := .ofNat (x.lookupCount p)
  let rows : Binary32 := .ofNat (x.estimateMatches p).toNat
  let width : Binary32 := .ofNat x.column.type.physicalSize
  Cost.memoryAccess * ((.ofNat 4 : Binary32) * lookups) +
    (Cost.storageRead * width + Cost.memoryAccess) * rows

/-- The values looked up for a predicate. -/
def keys (p : Predicate) (b : Bindings) : Except Failure (List Value) :=
  match p.lookups? x.column with
  | none => .error (.error (.storage (.unsupportedPredicate x.name p.display)))
  | some bindings => b.resolveEach none bindings

/-- The rows found for a list of values, with the value that each was found by, in the order of
their numbers. -/
def found (keys : List Value) : List Tuple :=
  (keys.flatMap fun key =>
    (x.lookup key).map fun row => (⟨row, [x.column], [key]⟩ : Tuple)).mergeSort
      fun a b => a.row ≤ b.row

/-- The rows found for a predicate. -/
def filter (p : Predicate) (b : Bindings) : Except Failure (List Tuple) :=
  (x.keys p b).map x.found

end HashIndex

end QueryEngine
