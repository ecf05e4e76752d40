import QueryEngine.Execution.Pipeline
import QueryEngine.Execution.Sink
import QueryEngine.Execution.Sorting
import QueryEngine.Execution.Source
import QueryEngine.Plan.Physical

/-!
# From plans to streams

Every node of a plan becomes a stream over the streams of its inputs. An input of another group
runs on a worker while one is free, and else in its consumer. A worker is pulled in step with its
consumer, so that executions can be computed; whatever else workers may do is a relation over plans.
-/

set_option autoImplicit false

namespace QueryEngine

/-- What running a plan takes from its surroundings. -/
structure RunLimits where
  /-- How many groups may have a worker. -/
  maxWorkers : Nat
  /-- How many tuples may wait between a worker and its consumer. -/
  channelCapacity : Nat
  /-- Whether sorted runs can be written. -/
  canSpill : Bool
deriving DecidableEq

structure LoweringState where
  run : RunState
  /-- How many workers are taken. -/
  workers : Nat

/-- A step of setting up streams; its changes stay when it fails. -/
abbrev Lowering := ExceptT Failure (StateM LoweringState)

namespace Lowering

variable (limits : RunLimits)

/-- The input of an operator that takes one, the last if there are several. -/
def single (op : Operator) (inputs : List TupleStream) : Except Failure TupleStream :=
  match inputs.getLast? with
  | some t => .ok t
  | none => .error (.error (.storage (.noInput op.name)))

/-- The stream of an operator with the output columns `cs` over the streams of its inputs. The
groups are those of the inputs. -/
def stream (s : RunState) (op : Operator) (cs : List Column) (groups : List GroupId)
    (inputs : List TupleStream) : Except Failure TupleStream :=
  match op with
  | .scan t columns i n => TupleStream.scan t s.store columns i n
  | .sample t columns p seed => (TupleStream.scan t s.store columns 0 1).map (·.sample p seed)
  | .rowCount t _ => .ok (TupleStream.rowCount t cs)
  | .indexScan x _ p => ((s.store.index x).filter p s.bindings).map TupleStream.ofList
  | .filter p => (single op inputs).map (·.filter p)
  | .subselect p => .ok (.subselect p groups.tail inputs)
  | .function f arguments _ => (single op inputs).map (·.apply f arguments cs)
  | .fetch t columns => (single op inputs).map (·.fetch t columns cs)
  | .projection p => (single op inputs).map (·.project p cs)
  | .sort order => (single op inputs).map (·.sort order)
  | .externalSort order chunk =>
    (single op inputs).map (·.externalSort .plain order chunk limits.canSpill cs)
  | .limitingSort order bounds => (single op inputs).map (·.limitingSort order bounds)
  | .limit bounds => (single op inputs).map (·.limit bounds)
  | .merge => .ok (.merge cs inputs)
  | .mergeLimitingSort order bounds => .ok ((TupleStream.mergeSorted order inputs).limit bounds)
  | .union distinct => .ok (.union distinct cs inputs)
  | .intersect => .ok (.intersect cs inputs)
  | .insert t values => .ok (.insert t values)
  | .update t values => (single op inputs).map (·.update t values)
  | .delete t => (single op inputs).map (·.delete t)

/-- The capacity from which on a channel cannot be addressed. -/
def channelBound : Nat := 144115188075855872

/-- The stream of an input as its consumer sees it. This is one of the ways in which an execution may go:
workers that pull from the moment at which they are set up, and free ones that are taken again, are
those of `PhysicalPlan.CanComeTo`. -/
def connect (consumer group : GroupId) (t : TupleStream) : Lowering TupleStream := do
  let st ← get
  if group ≠ consumer ∧ st.workers < limits.maxWorkers then
    if channelBound ≤ limits.channelCapacity then throw (.crashed .noRoom)
    set { st with workers := st.workers + 1 }
    return t.onWorker group
  else return t

/-- Sets up the inputs of a node, one after another. -/
def connectAll (consumer : GroupId) : List (GroupId × Lowering TupleStream) →
    Lowering (List TupleStream)
  | [] => return []
  | (group, lower) :: rest => do
    let t ← connect limits consumer group (← lower)
    return t :: (← connectAll consumer rest)

/-- Sets up the stream of a plan. -/
def lower (t : PhysicalPlan) : Lowering TupleStream :=
  t.fold fun group op inputs below => do
    let groups := inputs.map PlanTree.group
    let streams ← connectAll limits group (groups.zip below)
    let cs := PhysicalPlan.columns (.node group op inputs)
    let st ← get
    let result ← stream limits st.run op cs groups streams
    set { st with run := st.run.count .lower }
    return result

end Lowering

end QueryEngine
