import QueryEngine.Plan.Projection
import QueryEngine.Plan.Tree
import QueryEngine.Predicate.Basic
import QueryEngine.Storage.Store
import QueryEngine.Trait

/-!
# Physical operators

A physical operator fixes how a step of a query is carried out: the access path, the way to sort,
the partition that is read.
-/

set_option autoImplicit false

namespace QueryEngine

/-- Columns with the bindings that give their values. -/
abbrev Assignments := List (Column × Binding)

inductive Operator where
  /-- Reads one of several partitions of a table. -/
  | scan (table : TableHandle) (columns : List Column) (partition partitions : Nat)
  /-- Reads a table and keeps each row with a probability. -/
  | sample (table : TableHandle) (columns : List Column) (probability : Binary32) (seed : UInt64)
  /-- Asks the storage for the number of rows. -/
  | rowCount (table : TableHandle) (out : Column)
  /-- Reads the rows that an index finds for a predicate. -/
  | indexScan (index : IndexHandle) (table : TableHandle) (predicate : Predicate)
  | filter (predicate : Predicate)
  /-- A filter whose predicate reads the results of the inputs after the first. -/
  | subselect (predicate : Predicate)
  /-- Adds the result of a function as a further column. -/
  | function (function : Function) (arguments : List Binding) (out : Column)
  /-- Adds columns that are read by row number. -/
  | fetch (table : TableHandle) (columns : List Column)
  | projection (kind : Projection)
  | sort (order : SortOrder)
  /-- Sorts with at most `chunk` tuples in memory. -/
  | externalSort (order : SortOrder) (chunk : Nat)
  /-- Sorts and applies a limit, with no more tuples in memory than the limit reaches. -/
  | limitingSort (order : SortOrder) (bounds : RowLimit)
  | limit (bounds : RowLimit)
  /-- Puts the inputs one after another. -/
  | merge
  /-- Merges sorted inputs into one and applies a limit. -/
  | mergeLimitingSort (order : SortOrder) (bounds : RowLimit)
  | union (distinct : Bool)
  | intersect
  | insert (table : TableHandle) (values : Assignments)
  | update (table : TableHandle) (values : Assignments)
  | delete (table : TableHandle)

abbrev PhysicalPlan := PlanTree Operator

/-- How many inputs an operator takes. -/
inductive Arity where
  | exactly (n : Nat)
  | atLeast (n : Nat)
deriving DecidableEq

namespace Arity

def admits : Arity → Nat → Bool
  | exactly n, found => found == n
  | atLeast n, found => n ≤ found

/-- The number of inputs that is asked for. -/
def expected : Arity → Nat
  | exactly n => n
  | atLeast n => n

end Arity

/-- How an operator consumes its inputs. -/
inductive Shape where
  | source
  /-- One input, tuple by tuple. -/
  | pipeline
  /-- One input, which is consumed before the first tuple is emitted. -/
  | breaker
  /-- Several inputs. -/
  | merging
  /-- Consumes its input for its effects and emits nothing. -/
  | sink
deriving DecidableEq

def Shape.name : Shape → String
  | source => "source"
  | pipeline => "pipeline"
  | breaker => "breaker"
  | merging => "merging"
  | sink => "sink"

namespace Operator

def name : Operator → String
  | scan .. => "EntityScan"
  | sample .. => "EntitySample"
  | rowCount .. => "EntityCount"
  | indexScan .. => "IndexScan"
  | filter _ => "Filter"
  | subselect _ => "FilterOnSubSelect"
  | function .. => "Function"
  | fetch .. => "Fetch"
  | projection _ => "Projection"
  | sort _ => "Sort"
  | externalSort .. => "ExternalSort"
  | limitingSort .. => "LimitingSort"
  | limit _ => "Limit"
  | merge => "Merge"
  | mergeLimitingSort .. => "MergeLimitingSort"
  | union _ => "Union"
  | intersect => "Intersect"
  | insert .. => "Insert"
  | update .. => "Update"
  | delete _ => "Delete"

def shape : Operator → Shape
  | scan .. => .source
  | sample .. => .source
  | rowCount .. => .source
  | indexScan .. => .source
  | filter _ => .pipeline
  | subselect _ => .merging
  | function .. => .pipeline
  | fetch .. => .pipeline
  | projection p => if p.isAggregate then .breaker else .pipeline
  | sort _ => .breaker
  | externalSort .. => .breaker
  | limitingSort .. => .breaker
  | limit _ => .pipeline
  | merge => .merging
  | mergeLimitingSort .. => .merging
  | union _ => .merging
  | intersect => .merging
  | insert .. => .sink
  | update .. => .sink
  | delete _ => .sink

/-- Sources and inserts take no input, merging operators at least two, all others one. -/
def arity (op : Operator) : Arity :=
  match op.shape, op with
  | .source, _ => .exactly 0
  | .merging, _ => .atLeast 2
  | _, insert .. => .exactly 0
  | _, _ => .exactly 1

/-! ## Digests -/

/-- A table is told by its name and its handle. -/
def tableBytes (t : TableHandle) : List UInt8 := sizedBytes t.name ++ littleEndian 8 t.number

def columnsBytes (cs : List Column) : List UInt8 :=
  littleEndian 8 cs.length ++ cs.flatMap fun c => sizedBytes c.name

def orderBytes (order : SortOrder) : List UInt8 :=
  littleEndian 8 order.length ++
    order.flatMap fun key => sizedBytes key.1.name ++ [(key.2 = .descending : Bool).toUInt8]

def boundsBytes (b : RowLimit) : List UInt8 := bytes64 b.skip ++ bytes64 b.limit

def assignmentsBytes (values : Assignments) : List UInt8 :=
  values.flatMap fun v => sizedBytes v.1.name ++ v.2.digestBytes

/-- The bytes that stand for what an operator is given. -/
def detailBytes : Operator → List UInt8
  | scan t cs i n => tableBytes t ++ columnsBytes cs ++ littleEndian 8 i ++ littleEndian 8 n
  | sample t cs p seed =>
    tableBytes t ++ columnsBytes cs ++ littleEndian 4 p.toNat ++ bytes64 seed
  | rowCount t out => tableBytes t ++ sizedBytes out.name
  | indexScan x _ p =>
    sizedBytes x.name ++ littleEndian 8 x.table ++ littleEndian 8 x.number ++ p.digestBytes
  | filter p => p.digestBytes
  | subselect p => p.digestBytes
  | function f arguments out =>
    sizedBytes f.signature.display ++ f.isVectorised.toUInt8 ::
      arguments.flatMap Binding.digestBytes ++ sizedBytes out.name
  | fetch t cs => tableBytes t ++ columnsBytes cs
  | projection p => p.digestBytes
  | sort order => orderBytes order
  | externalSort order chunk => orderBytes order ++ littleEndian 8 chunk
  | limitingSort order bounds => orderBytes order ++ boundsBytes bounds
  | limit bounds => boundsBytes bounds
  | merge => []
  | mergeLimitingSort order bounds => orderBytes order ++ boundsBytes bounds
  | union distinct => [distinct.toUInt8]
  | intersect => []
  | insert t values => tableBytes t ++ assignmentsBytes values
  | update t values => tableBytes t ++ assignmentsBytes values
  | delete t => sizedBytes t.name

def digestBytes (op : Operator) : List UInt8 := sizedBytes op.name ++ op.detailBytes

/-- Whether the number of a table is among the bytes. -/
def showsHandle : Operator → Bool
  | scan .. => true
  | sample .. => true
  | rowCount .. => true
  | indexScan .. => true
  | fetch .. => true
  | insert .. => true
  | update .. => true
  | _ => false

/-! ## Properties for display -/

def orderText (order : SortOrder) : String :=
  ", ".intercalate (order.map fun key => s!"{key.1.name} {key.2.display}")

def boundsProperties (b : RowLimit) : List (String × String) :=
  [("skip", toString b.skip.toNat), ("limit", toString b.limit.toNat)]

def assignmentsText (values : Assignments) : String :=
  ", ".intercalate (values.map fun v => s!"{v.1.name} = {v.2.display}")

def boolText (b : Bool) : String := if b then "true" else "false"

/-- What an operator is given, as texts under names. -/
def properties : Operator → List (String × String)
  | scan t cs i n =>
    [("entity", t.name), ("columns", Column.nameList cs)] ++
      if 1 < n then [("partition", s!"{i}/{n}")] else []
  | sample t cs p seed =>
    [("entity", t.name), ("columns", Column.nameList cs),
      ("probability", NumberLayout.plain.format p), ("seed", toString seed.toNat)]
  | rowCount t _ => [("entity", t.name)]
  | indexScan x _ p => [("index", x.name), ("predicate", p.display)]
  | filter p => [("predicate", p.display)]
  | subselect p => [("predicate", p.display)]
  | function f arguments out =>
    [("function", f.signature.display),
      ("arguments", ", ".intercalate (arguments.map Binding.display)),
      ("vectorised", boolText f.isVectorised), ("out", out.name)]
  | fetch t cs => [("entity", t.name), ("columns", Column.nameList cs)]
  | projection p => [("kind", p.name), ("columns", Column.nameList p.columns)]
  | sort order => [("order", orderText order)]
  | externalSort order chunk => [("order", orderText order), ("chunk_size", toString chunk)]
  | limitingSort order bounds => ("order", orderText order) :: boundsProperties bounds
  | limit bounds => boundsProperties bounds
  | merge => []
  | mergeLimitingSort order bounds => ("order", orderText order) :: boundsProperties bounds
  | union distinct => [("distinct", boolText distinct)]
  | intersect => []
  | insert t values => [("entity", t.name), ("values", assignmentsText values)]
  | update t values => [("entity", t.name), ("values", assignmentsText values)]
  | delete t => [("entity", t.name)]

end Operator

end QueryEngine
