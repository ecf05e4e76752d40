import QueryEngine.Trait
import QueryEngine.Tuple

/-!
# The order of tuples

Tuples are compared column by column; a column that a tuple lacks counts as null. Sorting keeps
the order of tuples that compare as equal. A comparison crashes at a column of which one of the
tuples has no value; columns behind the first difference are not read.
-/

set_option autoImplicit false

namespace QueryEngine

namespace SortOrder

/-- The comparison of two values in a direction. -/
def compareValues (d : Direction) (a b : Value) : Ordering :=
  match d with
  | .ascending => a.sortCompare b
  | .descending => b.sortCompare a

/-- Compares two tuples by the first column in which they differ. -/
def compareTuples (order : SortOrder) (a b : Tuple) : Except Crash Ordering :=
  match order with
  | [] => .ok .eq
  | (c, d) :: rest => do
    let first := compareValues d (← a.getOrNull c) (← b.getOrNull c)
    if first = .eq then compareTuples rest a b else return first

/-- Whether the first of two tuples may come before the second. -/
def le (order : SortOrder) (a b : Tuple) : Bool :=
  match order.compareTuples a b with
  | .ok o => o != .gt
  | .error _ => true

/-- Compares neighbours; any way of sorting compares them, so it crashes where this does. -/
def checkNeighbours (order : SortOrder) : List Tuple → Except Crash Unit
  | a :: b :: rest => do
    let _ ← order.compareTuples a b
    checkNeighbours order (b :: rest)
  | _ => .ok ()

/-- Sorts tuples and keeps the order of equal ones. -/
def sortTuples (order : SortOrder) (ts : List Tuple) : Except Crash (List Tuple) :=
  let sorted := ts.mergeSort (le order)
  (order.checkNeighbours sorted).map fun () => sorted

/-- Inserts a tuple into a sorted list, after those that it does not come before. -/
def insert (order : SortOrder) (t : Tuple) : List Tuple → Except Crash (List Tuple)
  | [] => .ok [t]
  | u :: rest => do
    if (← order.compareTuples t u) = .lt then return t :: u :: rest
    else return u :: (← insert order t rest)

end SortOrder

end QueryEngine
