import QueryEngine.Column
import QueryEngine.Crash

/-!
# Tuples

A tuple is a row on its way through a query: a row number, a layout of columns and the values in
that order. A column is looked up by equality and the first match counts. An operator may lay a
tuple out with more columns than it has values; to read one of the columns beyond is a crash.
-/

set_option autoImplicit false

namespace QueryEngine

/-- The number of a stored row; tuples that do not come from storage carry `-1`. -/
abbrev RowId := Int

/-- The row number of tuples made by the engine itself. -/
def syntheticRow : RowId := -1

structure Tuple where
  row : RowId
  columns : List Column
  values : List Value
deriving DecidableEq, Inhabited

namespace Tuple

/-- The value of the column at a place. -/
def valueAt (t : Tuple) (place : Nat) : Except Crash Value :=
  match t.values[place]? with
  | some v => .ok v
  | none => .error .missingValue

/-- The value of a column, if the tuple has the column. -/
def get? (t : Tuple) (c : Column) : Except Crash (Option Value) :=
  (t.columns.findIdx? (· = c)).mapM t.valueAt

/-- The value of the first column with this qualified or simple name. -/
def getNamed? (t : Tuple) (name : String) : Except Crash (Option Value) :=
  (t.columns.findIdx? fun c => c.isNamed name).mapM t.valueAt

/-- The value of a column; a column that the tuple lacks counts as null. -/
def getOrNull (t : Tuple) (c : Column) : Except Crash Value :=
  (t.get? c).map fun v => v.getD .null

/-- The tuple with a further value, laid out as `columns`. -/
def extend (t : Tuple) (columns : List Column) (v : Value) : Tuple :=
  { t with columns := columns, values := t.values ++ [v] }

/-- The tuple laid out as `columns`; a column it lacks becomes null. -/
def project (t : Tuple) (columns : List Column) : Except Crash Tuple :=
  (columns.mapM t.getOrNull).map fun values => { t with columns := columns, values := values }

end Tuple

end QueryEngine
