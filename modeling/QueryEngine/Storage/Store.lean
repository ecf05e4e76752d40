import QueryEngine.Storage.Table

/-!
# Stores and handles

A store numbers its tables. Plans refer to tables and indexes by handles, which carry what planning
needs to know without the store. A handle may be given faults, as of a storage that fails or
misreports.
-/

set_option autoImplicit false

namespace QueryEngine

/-- The tables by their numbers. -/
structure Store where
  tables : List Table
deriving DecidableEq

/-- How a handle differs from its table. -/
structure Faults where
  /-- After so many results a scan fails; the end of the rows is a result. -/
  scanFailure : Option (Nat × String)
  countFailure : Option String
  reportedCount : Option UInt64
  hidesStatistics : Bool
deriving DecidableEq

def Faults.none : Faults := ⟨.none, .none, .none, false⟩

structure TableHandle where
  /-- The number of the table, which tells handles apart. -/
  number : Nat
  name : String
  columns : List Column
  faults : Faults
deriving DecidableEq

structure IndexHandle where
  table : Nat
  /-- The number of the index among those of its table. -/
  number : Nat
  name : String
  column : Column
deriving DecidableEq

namespace Store

def empty : Store := ⟨[]⟩

/-- Adds a table under the next number. -/
def add (s : Store) (t : Table) : Store := ⟨s.tables ++ [t]⟩

/-- The table of a number; an unused number has an empty one. -/
def table (s : Store) (number : Nat) : Table := s.tables.getD number (.empty "" [])

def setTable (s : Store) (number : Nat) (t : Table) : Store := ⟨s.tables.set number t⟩

def index? (s : Store) (x : IndexHandle) : Option HashIndex := (s.table x.table).indexes[x.number]?

/-- The index of a handle; a handle without index has an empty one. -/
def index (s : Store) (x : IndexHandle) : HashIndex :=
  (s.index? x).getD (.empty x.name x.column)

/-- A handle without faults on the table of a number. -/
def handle (s : Store) (number : Nat) : TableHandle :=
  let t := s.table number
  ⟨number, t.name, t.columns, .none⟩

end Store

namespace TableHandle

variable (h : TableHandle)

def table (s : Store) : Table := s.table h.number

/-- The number of rows, as the storage reports it. -/
def countRows (s : Store) : Except ExecutionError UInt64 :=
  match h.faults.countFailure, h.faults.reportedCount with
  | some reason, _ => .error (.storage (.unavailable reason))
  | none, some n => .ok n
  | none, none => .ok (UInt64.ofNat (h.table s).countRows)

def statistics? (s : Store) (c : Column) : Option ColumnStatistics :=
  if h.faults.hidesStatistics then none else (h.table s).statistics? c

/-- The indexes of the table, in the order in which they were made. -/
def indexes (s : Store) : List IndexHandle :=
  (h.table s).indexes.zipIdx.map fun (x, i) => ⟨h.number, i, x.name, x.column⟩

end TableHandle

end QueryEngine
