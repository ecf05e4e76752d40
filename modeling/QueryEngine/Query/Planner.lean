import QueryEngine.Plan.Explain
import QueryEngine.Plan.Logical
import QueryEngine.Plan.Partition
import QueryEngine.Query.PlanCache
import QueryEngine.Query.Engine
import QueryEngine.Rewrite.Pass

/-!
# Planning

A logical plan is checked, implemented, rewritten, and split where the cost policy finds that this
pays. Finished plans are kept under the digest of the logical plan, the hints, the policy and the
number of workers.
-/

set_option autoImplicit false

namespace QueryEngine

/-- A finished plan with the way it came about. -/
structure PlannedTree where
  plan : PhysicalPlan
  partitions : Nat
  rules : List Rule

structure Planner where
  config : PlannerConfig
  rules : List Rule
  cache : PlanCache PlannedTree

/-- A plan that is ready to run. -/
structure QueryPlan where
  plan : PhysicalPlan
  explanation : Explanation

namespace Planner

/-- A planner with an empty cache. -/
def new (config : PlannerConfig) (rules : List Rule) : Except Crash Planner :=
  (PlanCache.empty config.cacheSize).map fun cache => ⟨config, rules, cache⟩

/-- The key of a plan in the cache. -/
def cacheKey (t : LogicalPlan) (q : QueryContext) (maxWorkers : Nat) : UInt64 :=
  XXH64.hash (bytes64 t.digest ++ q.hints.digestBytes ++ q.policy.digestBytes ++
    littleEndian 8 maxWorkers)

/-- What rules consult while they rewrite a plan of a query. -/
def scope (config : PlannerConfig) (s : Store) (q : QueryContext) : RewriteScope :=
  ⟨s, q.bindings, q.policy, config, q.hints⟩

/-- How many workers a plan is worth. -/
def worthwhileWorkers (s : Store) (q : QueryContext) (maxWorkers : Nat) (t : PhysicalPlan) :
    Except Crash Nat :=
  if q.hints.noParallel then .ok 1
  else do
    let divisible ← t.parallelisableCost s q.bindings
    let total ← t.totalCost s q.bindings
    return q.policy.workers divisible total maxWorkers

end Planner

/-! ## Effects of planning -/

/-- What planning reads and changes. -/
structure PlanningState where
  engine : EngineState
  query : QueryContext
  planner : Planner

/-- A step of planning. Its changes stay, also when it ends with an error or crashes. -/
abbrev Planning := ExceptT QueryError (ExceptT Crash (StateM PlanningState))

namespace Planning

/-- A check without effects. -/
def ofPlanning {α : Type} (r : Fallible PlanningError α) : Planning α :=
  match r with
  | .error crash => throwThe Crash crash
  | .ok (.error e) => throw (.planning e)
  | .ok (.ok a) => pure a

def ofCheck {α : Type} (r : Except PlanningError α) : Planning α :=
  match r with
  | .error e => throw (.planning e)
  | .ok a => pure a

def ofEstimate {α : Type} (r : Except Crash α) : Planning α :=
  match r with
  | .error crash => throwThe Crash crash
  | .ok a => pure a

/-- Splits a plan where this pays. Groups for the parts are taken from the query. -/
def split (maxWorkers : Nat) (t : PhysicalPlan) : Planning (PhysicalPlan × Nat) := do
  let st ← get
  let workers ← ofEstimate (Planner.worthwhileWorkers st.engine.store st.query maxWorkers t)
  match if 1 < workers then t.tryPartition workers st.query.nextGroup else none with
  | none => return (t, 1)
  | some (u, next) =>
    set { st with query := { st.query with nextGroup := next } }
    ofCheck u.validate
    return (u, workers)

/-- Turns a logical plan into a physical one. -/
def optimise (t : LogicalPlan) (maxWorkers : Nat) : Planning PlannedTree := do
  let st ← get
  let outcome ← ofPlanning (RewriteOutcome.rewrite
    (Planner.scope st.planner.config st.engine.store st.query) st.planner.rules t.implement)
  set { st with engine := st.engine.count .rules outcome.fired.length }
  ofCheck outcome.plan.validate
  let (u, partitions) ← split maxWorkers outcome.plan
  return ⟨u, partitions, outcome.fired⟩

/-- Takes a plan from the cache or makes it, and tells whether it was there. -/
def obtain (t : LogicalPlan) (maxWorkers : Nat) : Planning (PlannedTree × Bool) := do
  let st ← get
  let key := Planner.cacheKey t st.query maxWorkers
  match st.planner.cache.get? key with
  | some found =>
    let planner := { st.planner with cache := st.planner.cache.put key found }
    set { st with planner := planner, engine := st.engine.count .cacheHits 1 }
    return (found, true)
  | none =>
    let made ← optimise t maxWorkers
    modify fun st =>
      { st with planner := { st.planner with cache := st.planner.cache.put key made } }
    return (made, false)

/-- Plans a query. -/
def plan (t : LogicalPlan) (maxWorkers : Nat) : Planning QueryPlan := do
  let st ← get
  ofCheck t.validate
  match t.bind st.query.bindings with
  | .error e => throw (.binding e)
  | .ok () =>
    let (entry, hit) ← obtain t maxWorkers
    let root ← ofEstimate (entry.plan.explain st.engine.store st.query.bindings)
    modify fun st => { st with engine := st.engine.count .plan 1 }
    return ⟨entry.plan,
      ⟨root, entry.plan.digest, entry.partitions, entry.rules.map Rule.name, hit⟩⟩

end Planning

end QueryEngine
