import QueryEngine.Plan.Logical

/-!
# Building logical plans

A builder grows a plan from a source upwards. The first fault is kept and reported at the end;
steps after it change nothing.
-/

set_option autoImplicit false

namespace QueryEngine

/-- The plan so far, if a source has been given; or the first fault. -/
abbrev PlanBuilder := Except PlanningError (Option LogicalPlan)

namespace PlanBuilder

def empty : PlanBuilder := .ok none

/-- The table's columns, unless some are asked for. -/
def chosenColumns (t : TableHandle) (cs : List Column) : List Column :=
  if cs.isEmpty then t.columns else cs

/-- Starts a plan. The second part is the next free group; a source that is refused takes none. -/
def source (b : PlanBuilder) (op : LogicalOperator) (next : GroupId) : PlanBuilder × GroupId :=
  match b with
  | .error e => (.error e, next)
  | .ok (some _) => (.error (.invalidPlan (.notFirst op.name)), next)
  | .ok none => (.ok (some (.node next op [])), next + 1)

def scan (b : PlanBuilder) (t : TableHandle) (cs : List Column) (next : GroupId) :
    PlanBuilder × GroupId :=
  b.source (.scan t (chosenColumns t cs)) next

/-- The column of a table with this qualified or simple name. -/
def column (t : TableHandle) (name : String) : Except PlanningError Column :=
  match t.columns.find? (·.isNamed name) with
  | some c => .ok c
  | none => .error (.unknownColumn name ("entity " ++ t.name))

/-- Starts with a scan of named columns. -/
def scanNamed (b : PlanBuilder) (t : TableHandle) (names : List String) (next : GroupId) :
    PlanBuilder × GroupId :=
  match b, names.mapM (column t) with
  | .ok _, .error e => (.error e, next)
  | _, cs => b.scan t (cs.toOption.getD []) next

/-- Starts with a sample; the probability must be above zero and at most one. -/
def sample (b : PlanBuilder) (t : TableHandle) (cs : List Column) (p : Binary32) (seed : UInt64)
    (next : GroupId) : PlanBuilder × GroupId :=
  match b with
  | .error e => (.error e, next)
  | .ok _ =>
    if Binary.zero.lt p && p.le (.ofNat 1) then
      b.source (.sample t (chosenColumns t cs) p seed) next
    else (.error (.invalidPlan (.sampleProbability p)), next)

/-- Puts an operator on top of the plan, in the plan's group, beside further inputs. -/
def apply (b : PlanBuilder) (op : LogicalOperator) (others : List LogicalPlan) : PlanBuilder :=
  match b with
  | .error e => .error e
  | .ok none => .error (.invalidPlan (.noInput op.name))
  | .ok (some t) => .ok (some (.node t.group op (t :: others)))

/-- Filters by a predicate that reads the results of sub-queries. -/
def subselect (b : PlanBuilder) (p : Predicate) (queries : List LogicalPlan) : PlanBuilder :=
  match b with
  | .error e => .error e
  | .ok _ =>
    if queries.isEmpty then .error (.invalidPlan .noSubqueries)
    else b.apply (.subselect p) queries

/-- Adds the result of a function that is found by name and argument types. -/
def function (b : PlanBuilder) (registry : FunctionRegistry) (name : String)
    (arguments : List Binding) (out : String) : PlanBuilder :=
  match b with
  | .error e => .error e
  | .ok _ =>
    match arguments.mapM Binding.type? with
    | none => .error (.incompatibleSignature name (arguments.map Binding.display))
    | some types =>
      match registry.resolve name types with
      | .error e => .error e
      | .ok f => b.apply (.function f arguments ⟨out, f.signature.returns, true⟩) []

/-- The finished plan. -/
def build (b : PlanBuilder) : Except PlanningError LogicalPlan :=
  match b with
  | .error e => .error e
  | .ok none => .error (.invalidPlan .empty)
  | .ok (some t) => .ok t

end PlanBuilder

end QueryEngine
