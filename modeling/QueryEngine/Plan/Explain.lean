import QueryEngine.Plan.Estimate
import QueryEngine.Value.Json

/-!
# Explained plans

A plan for display: every node with its name, its properties and its estimates.
-/

set_option autoImplicit false

namespace QueryEngine

/-- What is shown of one node. -/
structure ExplainEntry where
  name : String
  rows : UInt64
  cost : Cost
  properties : List (String × String)

abbrev ExplainTree := PlanTree ExplainEntry

namespace ExplainEntry

/-- The value of a property. -/
def property? (e : ExplainEntry) (key : String) : Option String := e.properties.lookup key

end ExplainEntry

namespace PhysicalPlan

/-- The tree with estimates. -/
def explain (s : Store) (b : Bindings) (t : PhysicalPlan) : Except Crash ExplainTree :=
  t.fold fun group op inputs below => do
    let u : PhysicalPlan := .node group op inputs
    return .node group ⟨op.name, ← u.rows s b, ← u.cost s b, op.properties⟩ (← below.mapM id)

/-- The tree as lines of names and groups, indented by depth. -/
def outline (t : PhysicalPlan) : String :=
  String.join (lines t)
where
  lines (t : PhysicalPlan) : List String :=
    t.fold fun group op _ below =>
      s!"{op.name}#{group.toNat}\n" :: below.flatten.map ("  " ++ ·)

end PhysicalPlan

namespace Cost

def toJson (c : Cost) : Json :=
  .object [("io", .ofSingle c.io), ("cpu", .ofSingle c.cpu), ("memory", .ofSingle c.memory),
    ("accuracy", .ofSingle c.accuracy)]

end Cost

namespace ExplainTree

def toJson (t : ExplainTree) : Json :=
  t.fold fun group e _ below =>
    .object [("op", .text e.name), ("group", .ofNat group.toNat), ("rows", .ofNat e.rows.toNat),
      ("cost", e.cost.toJson),
      ("props", .array (e.properties.map fun p =>
        .object [("key", .text p.1), ("value", .text p.2)])),
      ("inputs", .array below)]

end ExplainTree

/-- A plan for display with the way it came about. -/
structure Explanation where
  root : ExplainTree
  digest : UInt64
  /-- Into how many partitions the plan was split. -/
  partitions : Nat
  /-- The rules that fired, in order. -/
  rules : List String
  /-- Whether the plan was found among the kept ones. -/
  cached : Bool

/-- The explanation as a JSON document with one item per line. -/
def Explanation.toJson (e : Explanation) : String :=
  (Json.object [("root", e.root.toJson), ("digest", .ofNat e.digest.toNat),
    ("partitions", .ofNat e.partitions), ("rules", .array (e.rules.map .text)),
    ("cached", .bool e.cached)]).renderIndented 0

end QueryEngine
