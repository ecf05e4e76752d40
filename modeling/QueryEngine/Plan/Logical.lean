import QueryEngine.Plan.Physical

/-!
# Logical plans

A logical plan says what to compute. Every logical operator has one physical counterpart, which
gives it its columns, checks and digest.
-/

set_option autoImplicit false

namespace QueryEngine

inductive LogicalOperator where
  | scan (table : TableHandle) (columns : List Column)
  | sample (table : TableHandle) (columns : List Column) (probability : Binary32) (seed : UInt64)
  | filter (predicate : Predicate)
  | subselect (predicate : Predicate)
  | function (function : Function) (arguments : List Binding) (out : Column)
  | fetch (table : TableHandle) (columns : List Column)
  | projection (kind : Projection)
  | sort (order : SortOrder)
  | limit (bounds : RowLimit)
  | union (distinct : Bool)
  | intersect
  | insert (table : TableHandle) (values : Assignments)
  | update (table : TableHandle) (values : Assignments)
  | delete (table : TableHandle)

abbrev LogicalPlan := PlanTree LogicalOperator

namespace LogicalOperator

/-- The physical counterpart of an operator. -/
def implement : LogicalOperator → Operator
  | scan t cs => .scan t cs 0 1
  | sample t cs p seed => .sample t cs p seed
  | filter p => .filter p
  | subselect p => .subselect p
  | function f arguments out => .function f arguments out
  | fetch t cs => .fetch t cs
  | projection p => .projection p
  | sort order => .sort order
  | limit bounds => .limit bounds
  | union distinct => .union distinct
  | intersect => .intersect
  | insert t values => .insert t values
  | update t values => .update t values
  | delete t => .delete t

def name (op : LogicalOperator) : String := op.implement.name

/-- The operator that `implement` turns into a physical one, where there is one: a partition of a
scan and the operators that only rewriting introduces have none. -/
def ofPhysical? : Operator → Option LogicalOperator
  | .scan t cs _ _ => some (scan t cs)
  | .sample t cs p seed => some (sample t cs p seed)
  | .filter p => some (filter p)
  | .subselect p => some (subselect p)
  | .function f arguments out => some (function f arguments out)
  | .fetch t cs => some (fetch t cs)
  | .projection p => some (projection p)
  | .sort order => some (sort order)
  | .limit bounds => some (limit bounds)
  | .union distinct => some (union distinct)
  | .intersect => some intersect
  | .insert t values => some (insert t values)
  | .update t values => some (update t values)
  | .delete t => some (delete t)
  | _ => none

theorem ofPhysical?_implement (op : LogicalOperator) : ofPhysical? op.implement = some op := by
  cases op <;> rfl

end LogicalOperator

namespace LogicalPlan

variable (t : LogicalPlan)

/-- The physical plan, node by node. -/
def implement : PhysicalPlan := t.map LogicalOperator.implement

theorem implement_node (g : GroupId) (op : LogicalOperator) (inputs : List LogicalPlan) :
    implement (.node g op inputs) = .node g op.implement (inputs.map implement) := by
  rw [implement, PlanTree.map, PlanTree.fold_node]
  rfl

def columns : List Column := t.implement.columns

def validate : Except PlanningError Unit := t.implement.validate

def bind (b : Bindings) : Except BindingError Unit := t.implement.bind b

/-- The bytes that stand for a tree in digests. Groups do not count. -/
def digestBytes : List UInt8 :=
  t.fold fun _ op _ below =>
    sizedBytes "logical" ++ op.implement.digestBytes ++ littleEndian 8 below.length ++ below.flatten

def digest : UInt64 := XXH64.hash t.digestBytes

end LogicalPlan

end QueryEngine
