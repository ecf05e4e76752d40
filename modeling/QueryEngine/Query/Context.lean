import QueryEngine.Binding
import QueryEngine.Cost.Policy

/-!
# Query contexts

What planning and running a query share: hints to the planner, the cost policy, the late-bound
values, the next free group and whether the query has been cancelled.
-/

set_option autoImplicit false

namespace QueryEngine

structure QueryHints where
  /-- Scans are not replaced by index look-ups. -/
  noIndex : Bool
  /-- The plan is not split. -/
  noParallel : Bool
  /-- A policy in place of the configured one. -/
  policy : Option CostPolicy
deriving DecidableEq

namespace QueryHints

def none : QueryHints := ⟨false, false, .none⟩

/-- The bytes that stand for hints in digests. -/
def digestBytes (h : QueryHints) : List UInt8 :=
  h.noIndex.toUInt8 :: h.noParallel.toUInt8 ::
    match h.policy with
    | some p => 1 :: p.digestBytes
    | .none => [0]

end QueryHints

structure QueryContext where
  hints : QueryHints
  /-- The policy in force. -/
  policy : CostPolicy
  bindings : Bindings
  nextGroup : GroupId
  cancelled : Bool
deriving DecidableEq

namespace QueryContext

/-- A context without hints. -/
def new (configured : CostPolicy) : QueryContext := ⟨.none, configured, .empty, 0, false⟩

/-- Puts hints in force; a policy among them has to be valid. -/
def withHints (q : QueryContext) (configured : CostPolicy) (hints : QueryHints) :
    Except PlanningError QueryContext :=
  match hints.policy with
  | none => .ok { q with hints := hints, policy := configured }
  | some p =>
    match p.validate with
    | .error fault => .error (.invalidCostPolicy fault)
    | .ok () => .ok { q with hints := hints, policy := p }

/-- A context for a further run: all is kept but a cancellation. -/
def fork (q : QueryContext) : QueryContext := { q with cancelled := false }

end QueryContext

end QueryEngine
