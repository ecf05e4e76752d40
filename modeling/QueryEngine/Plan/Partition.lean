import QueryEngine.Plan.Estimate

/-!
# Splitting plans

A chain of operators over the scan of a whole table can be split: each part reads one partition
and runs in a group of its own. The parts are put together again by a merge, or by an ordered
merge where the chain feeds a sort with a limit.
-/

set_option autoImplicit false

namespace QueryEngine

namespace Operator

/-- Whether an operator works on each tuple by itself and has one input. -/
def isPerTuple : Operator → Bool
  | filter _ => true
  | function .. => true
  | fetch .. => true
  | projection p => !p.isAggregate
  | _ => false

/-- Whether an operator reads a whole table. -/
def isWholeScan : Operator → Bool
  | scan _ _ _ n => n == 1
  | _ => false

/-- A scan of one partition in place of a scan. -/
def restrict (partition partitions : Nat) : Operator → Operator
  | scan t cs _ _ => scan t cs partition partitions
  | op => op

end Operator

namespace PhysicalPlan

/-- Whether a plan is a chain of operators on single tuples over a scan of a whole table. -/
def isChain (t : PhysicalPlan) : Bool :=
  t.fold fun group op inputs below =>
    !(traits (.node group op inputs)).has .notPartitionable &&
      (op.isWholeScan || (op.isPerTuple && below == [true]))

/-- One part of a chain, in a group of its own. -/
def part (t : PhysicalPlan) (partition partitions : Nat) (group : GroupId) : PhysicalPlan :=
  t.fold fun _ op _ below => .node group (op.restrict partition partitions) below

/-- The parts of a chain. The first keeps the group of the chain, the others take groups from
`next` on. -/
def parts (t : PhysicalPlan) (partitions : Nat) (next : GroupId) : List PhysicalPlan :=
  (List.range partitions).map fun i =>
    t.part i partitions (if i = 0 then t.group else next + UInt32.ofNat (i - 1))

/-- The next free group after a split. -/
def afterSplit (partitions : Nat) (next : GroupId) : GroupId := next + UInt32.ofNat (partitions - 1)

/-- Splits a chain or a sort with a limit over a chain. -/
def splitHere? (t : PhysicalPlan) (partitions : Nat) (next : GroupId) : Option PhysicalPlan :=
  if t.isChain then some (.nary .merge (t.parts partitions next))
  else
    match t.op, t.input? with
    | .limitingSort order bounds, some input =>
      if isChain input then
        some (.node t.group (.mergeLimitingSort order bounds)
          ((parts input partitions next).map (.unary (.limitingSort order ⟨0, bounds.reach⟩))))
      else none
    | _, _ => none

mutual

/-- Splits the first place of a tree, from the root on, where this is possible. -/
def splitFirst? (partitions : Nat) (next : GroupId) : PhysicalPlan → Option PhysicalPlan
  | .node group op inputs =>
    match splitHere? (.node group op inputs) partitions next with
    | some t => some t
    | none => (splitAmong? partitions next inputs).map (.node group op)

def splitAmong? (partitions : Nat) (next : GroupId) :
    List PhysicalPlan → Option (List PhysicalPlan)
  | [] => none
  | t :: rest =>
    match splitFirst? partitions next t with
    | some u => some (u :: rest)
    | none => (splitAmong? partitions next rest).map (t :: ·)

end

/-- Splits a plan into partitions, at least two, if there is a place for it. The second part is
the next free group. -/
def tryPartition (t : PhysicalPlan) (partitions : Nat) (next : GroupId) :
    Option (PhysicalPlan × GroupId) :=
  if partitions < 2 then none
  else (splitFirst? partitions next t).map fun u => (u, afterSplit partitions next)

end PhysicalPlan

end QueryEngine
