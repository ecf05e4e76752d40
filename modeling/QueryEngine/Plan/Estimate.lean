import QueryEngine.Plan.Physical
import QueryEngine.Statistics

/-!
# Estimates of physical plans

Rows and costs are estimated from what the storage reports now. An estimate of rows crashes where
the one of a predicate does.
-/

set_option autoImplicit false

namespace QueryEngine

namespace TableHandle

variable (h : TableHandle) (s : Store)

/-- The reported number of rows, zero if the storage fails to report it. -/
def estimatedRows : UInt64 := (h.countRows s).toOption.getD 0

/-- The statistics of those columns that have some. -/
def statisticsOf (cs : List Column) : StatisticsMap :=
  cs.filterMap fun c => (h.statistics? s c).map fun stats => (c, stats)

end TableHandle

/-! ## Rows -/

namespace Operator

/-- The statistics of the output's columns, given those of the first input. -/
def statistics (s : Store) (op : Operator) (input : StatisticsMap) : StatisticsMap :=
  match op with
  | scan t cs _ _ => t.statisticsOf s cs
  | sample t cs _ _ => t.statisticsOf s cs
  | indexScan x t _ => t.statisticsOf s [x.column]
  | fetch t cs => t.statisticsOf s cs ++ input
  | projection p => if p.isAggregate then [] else input
  | rowCount .. => []
  | insert .. => []
  | update .. => []
  | delete _ => []
  | _ => input

/-- The rows of one partition, when they are dealt out evenly. -/
def partitionRows (rows : UInt64) (partition partitions : Nat) : UInt64 :=
  let n := UInt64.ofNat (max partitions 1)
  rows / n + if UInt64.ofNat partition < rows % n then 1 else 0

/-- The rows of all inputs together. -/
def totalRows (inputs : List (Except Crash UInt64)) : Except Crash UInt64 :=
  (inputs.mapM id).map fun rows => rows.foldl (· + ·) 0

/-- The number of rows, given those of the inputs and a way to estimate a predicate on the first
input. -/
def rows (s : Store) (selectivity : Predicate → Except Crash Selectivity) (op : Operator)
    (inputs : List (Except Crash UInt64)) : Except Crash UInt64 :=
  let first := inputs.headD (.ok 0)
  let all := totalRows inputs
  match op with
  | scan t _ i n => .ok (partitionRows (t.estimatedRows s) i n)
  | sample t _ p _ =>
    .ok ((Binary.ofNat (t.estimatedRows s).toNat : Binary64) * p.widen).ceilToCount
  | rowCount .. => .ok 1
  | indexScan x _ p => .ok ((s.index x).estimateMatches p)
  | filter p | subselect p =>
    if inputs.isEmpty then .ok 0
    else do
      let share ← selectivity p
      return share.apply (← first)
  | projection p => if p.isAggregate then .ok 1 else first
  | limit bounds => first.map bounds.bounded
  | limitingSort _ bounds => first.map bounds.bounded
  | mergeLimitingSort _ bounds => all.map bounds.bounded
  | merge => all
  | union _ => all
  | intersect => (inputs.mapM id).map fun rows => rows.min?.getD 0
  | insert .. => .ok 0
  | update .. => .ok 0
  | delete _ => .ok 0
  | _ => first

end Operator

namespace PhysicalPlan

variable (s : Store) (b : Bindings) (t : PhysicalPlan)

def statistics : StatisticsMap :=
  t.fold fun _ op _ below => op.statistics s (below.headD [])

/-- The estimate of a predicate on the first of some inputs. -/
def selectivity (inputs : List PhysicalPlan) (p : Predicate) : Except Crash Selectivity :=
  p.estimate ((inputs.head?.map (statistics s)).getD []) b

/-- The estimated number of output tuples. -/
def rows : Except Crash UInt64 :=
  t.fold fun _ op inputs below => op.rows s (selectivity s b inputs) below

end PhysicalPlan

/-! ## Costs -/

/-- The binary logarithm; fewer than two count as two. -/
def depthOf (n : Binary32) : Binary32 := (n.maximum (.ofNat 2)).log2

/-- The comparisons of a sort of `n` tuples of which `kept` are kept in order, by `keys` columns. -/
def sortCost (n kept : Binary32) (keys : Nat) : Cost :=
  Cost.memoryAccess * ((.ofNat 2 : Binary32) * n * depthOf kept * .ofNat keys)

/-- Memory for `n` tuples of a size. -/
def bufferCost (n : Binary64) (size : Binary32) : Cost := Cost.memoryBytes (n * size.widen)

/-- Reading a row. -/
def readCost (cs : List Column) : Cost :=
  Cost.storageRead * (.ofNat (Column.rowWidth cs) : Binary32) +
    Cost.memoryAccess * (.ofNat cs.length : Binary32)

/-- Writing values. -/
def writeCost (values : Assignments) : Cost :=
  Cost.storageWrite * (.ofNat (Column.rowWidth (values.map (·.1))) : Binary32)

namespace Operator

def countOf (n : UInt64) : Binary32 := .ofNat n.toNat

/-- The number of tuples that a sort with a limit keeps. -/
def kept (n : Binary32) (bounds : RowLimit) : Binary32 := n.minimum (countOf bounds.reach)

/-- The cost of a projection. -/
def projectionCost (p : Projection) (n size : Binary32) : Cost :=
  match p with
  | .select cs => Cost.memoryAccess * ((.ofNat cs.length : Binary32) * n)
  | .count => Cost.memoryAccess * n
  | .nonempty => Cost.memoryAccess * n
  | _ => (Cost.memoryAccess + Cost.flop) * n + Cost.memoryBytes size.widen

/-- The cost of an operator alone, given its output's rows, its inputs' rows and the size of an
output tuple. -/
def cost (s : Store) (op : Operator) (output : Except Crash UInt64)
    (inputs : List (Except Crash UInt64)) (size : Binary32) : Except Crash Cost :=
  let first := (inputs.headD (.ok 0)).map countOf
  let all := (totalRows inputs).map countOf
  match op with
  | scan _ cs _ _ => output.map fun rows => readCost cs * countOf rows
  | sample t cs p _ =>
    .ok (readCost cs * countOf (t.estimatedRows s) +
      { Cost.zero with accuracy := .ofNat 1 - p })
  | rowCount .. => .ok (Cost.storageRead * (.ofNat 8 : Binary32) + Cost.memoryAccess)
  | indexScan x _ p => .ok ((s.index x).cost p)
  | filter p => first.map fun n => p.cost * n
  | subselect p => first.map fun n => p.cost * n
  | function f arguments _ =>
    first.map fun n => (f.cost + Cost.memoryAccess * (.ofNat arguments.length : Binary32)) * n
  | fetch _ cs => first.map fun n => readCost cs * n
  | projection p => first.map fun n => projectionCost p n size
  | sort order => first.map fun n => sortCost n n order.length + bufferCost n.widen size
  | externalSort order chunk => first.map fun n =>
    (Cost.storageRead + Cost.storageWrite) * (n * size) + sortCost n n order.length +
      bufferCost (.ofNat chunk) size
  | limitingSort order bounds => first.map fun n =>
    sortCost n (kept n bounds) order.length + bufferCost (kept n bounds).widen size
  | mergeLimitingSort order bounds => all.map fun n =>
    Cost.memoryAccess * (n * depthOf (.ofNat inputs.length) * .ofNat order.length) +
      bufferCost (kept n bounds).widen size
  | limit bounds => first.map fun n => Cost.memoryAccess * kept n bounds
  | merge => all.map fun n => Cost.memoryAccess * n
  | union distinct => all.map fun n =>
    Cost.memoryAccess * n + if distinct then bufferCost n.widen size else .zero
  | intersect => do
    let n ← all
    let buffered ← totalRows inputs.tail
    return Cost.memoryAccess * n + bufferCost (.ofNat buffered.toNat) size
  | insert _ values => .ok (writeCost values)
  | update _ values => first.map fun n => (writeCost values + Cost.memoryAccess) * n
  | delete _ => first.map fun n => Cost.storageWrite * (.ofNat 8 : Binary32) * n

end Operator

namespace PhysicalPlan

variable (s : Store) (b : Bindings) (t : PhysicalPlan)

/-- The cost of the root alone. -/
def cost : Except Crash Cost :=
  t.op.cost s (t.rows s b) (t.inputs.map (rows s b)) (.ofNat t.tupleSize)

/-- The costs of all nodes, each selected and added to the sum over its inputs. -/
def sumCosts (own : PhysicalPlan → Except Crash Cost) : Except Crash Cost :=
  t.fold fun group op inputs below => do
    let first ← own (.node group op inputs)
    return first + Cost.sum (← below.mapM id)

def totalCost : Except Crash Cost := t.sumCosts (cost s b)

/-- The share of the total cost that falls on nodes whose output can be split. -/
def parallelisableCost : Except Crash Cost :=
  t.sumCosts fun u => if u.traits.has .notPartitionable then .ok .zero else u.cost s b

end PhysicalPlan

end QueryEngine
