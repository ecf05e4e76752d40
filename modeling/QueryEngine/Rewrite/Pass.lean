import QueryEngine.Rewrite.Rule

/-!
# Rewriting

A pass visits every node of a plan once and applies the first rule that fires there. Passes are
repeated until one changes nothing. Going down, a pass visits the inputs of the replacement; going
up, it visits a node after its inputs.
-/

set_option autoImplicit false

namespace QueryEngine

/-- A plan with the rules that have fired, in order. -/
structure Rewritten where
  plan : PhysicalPlan
  fired : List Rule

namespace Rewritten

variable (scope : RewriteScope) (rules : List Rule)

/-- Applies the first rule that fires at the root. -/
def step (t : PhysicalPlan) : List Rule → Except Crash { w : Rewritten // Rule.Lighter t w.plan }
  | [] => .ok ⟨⟨t, []⟩, match t with | .node _ _ _ => Rule.lighter_of_inputs_eq⟩
  | r :: rest =>
    match h : r.apply scope t with
    | .error e => .error e
    | .ok (some u) => .ok ⟨⟨u, [r]⟩, Rule.inputs_weight_lt h⟩
    | .ok none => step t rest

/-- Visits a node before the inputs of its replacement. -/
def topDown (t : PhysicalPlan) : Except Crash Rewritten := do
  let ⟨w, _lighter⟩ ← step scope t rules
  let below ← w.plan.inputs.attach.mapM fun ⟨c, _h⟩ => topDown c
  return ⟨w.plan.withInputs (below.map plan), w.fired ++ below.flatMap fired⟩
termination_by t.weight
decreasing_by exact _lighter c _h

/-- Visits a node after its inputs. -/
def bottomUp (t : PhysicalPlan) : Except Crash Rewritten :=
  t.fold fun group op _ below => do
    let below ← below.mapM id
    let w ← step scope (.node group op (below.map plan)) rules
    return ⟨w.1.plan, below.flatMap fired ++ w.1.fired⟩

/-- One pass over a plan. -/
def pass (t : PhysicalPlan) : Except Crash Rewritten :=
  match scope.config.matchOrder with
  | .topDown => topDown scope rules t
  | .bottomUp => bottomUp scope rules t

end Rewritten

structure RewriteOutcome where
  plan : PhysicalPlan
  /-- How many passes were made, with the one that changed nothing. -/
  passes : Nat
  fired : List Rule

namespace RewriteOutcome

variable (scope : RewriteScope) (rules : List Rule)

/-- Goes on with passes; `left` is how many are still allowed. -/
def proceed (made : Nat) (w : Rewritten) : Nat → Fallible PlanningError RewriteOutcome
  | 0 => throw (.rewriteLimitExceeded made)
  | left + 1 => do
    let next ← Rewritten.pass scope rules w.plan
    if next.fired.isEmpty then return ⟨next.plan, made + 1, w.fired⟩
    else proceed (made + 1) ⟨next.plan, w.fired ++ next.fired⟩ left

/-- Rewrites a plan until nothing changes, within the allowed number of passes. -/
def rewrite (t : PhysicalPlan) : Fallible PlanningError RewriteOutcome :=
  proceed scope rules 0 ⟨t, []⟩ scope.config.maxPasses

end RewriteOutcome

end QueryEngine
