import QueryEngine.Config.Basic
import QueryEngine.Plan.Estimate
import QueryEngine.Query.Context

/-!
# Rewrite rules

A rule replaces a node by another plan, looking at the node and its direct inputs only. The
inputs of a replacement weigh less than the node replaced (`Rule.inputs_weight_lt`), so that a
pass which goes on with them comes to an end.
-/

set_option autoImplicit false

namespace QueryEngine

/-- What rules may consult besides the node. -/
structure RewriteScope where
  store : Store
  bindings : Bindings
  policy : CostPolicy
  config : PlannerConfig
  hints : QueryHints

inductive Rule where
  /-- A count over a whole scan asks the storage. -/
  | countPushdown
  /-- A filter over a whole scan becomes an index look-up where this costs less. -/
  | booleanIndexScan
  /-- A limit over a sort becomes a sort with a limit. -/
  | limitingSortMerge
  /-- A sort that exceeds the memory budget spills. -/
  | externalSort
  /-- A function of wide operands takes its vectorised variant. -/
  | functionVectorisation
deriving DecidableEq

namespace Rule

def name : Rule → String
  | countPushdown => "CountPushdown"
  | booleanIndexScan => "BooleanIndexScan"
  | limitingSortMerge => "LimitingSortMerge"
  | externalSort => "ExternalSort"
  | functionVectorisation => "FunctionVectorisation"

/-- All rules, the first to be tried first. -/
def all : List Rule :=
  [countPushdown, booleanIndexScan, limitingSortMerge, externalSort, functionVectorisation]

variable (scope : RewriteScope)

def pushCount : PhysicalPlan → Option PhysicalPlan
  | .node group (.projection .count) [.node _ (.scan t _ _ 1) _] =>
    some (.node group (.rowCount t ⟨"count", .long, false⟩) [])
  | _ => none

def fuseLimit : PhysicalPlan → Option PhysicalPlan
  | .node group (.limit bounds) [.node _ (.sort order) inputs] =>
    some (.node group (.limitingSort order bounds) inputs)
  | .node group (.limit bounds) [.node _ (.externalSort order _) inputs] =>
    some (.node group (.limitingSort order bounds) inputs)
  | _ => none

/-- The product of two counts, or the largest count if there is no such count. -/
def saturatingMul (a b : UInt64) : UInt64 := UInt64.ofNat (min (a.toNat * b.toNat) (UInt64.size - 1))

def spillSort : PhysicalPlan → Except Crash (Option PhysicalPlan)
  | .node group (.sort order) (input :: others) => do
    let size := UInt64.ofNat (PhysicalPlan.tupleSize (.node group (.sort order) (input :: others)))
    let rows ← PhysicalPlan.rows scope.store scope.bindings input
    let budget := scope.config.memoryBudget
    if saturatingMul rows size ≤ budget then return none
    else
      let chunk := max (budget / size).toNat 1
      return some (.node group (.externalSort order chunk) (input :: others))
  | _ => .ok none

/-- The width of the widest argument. -/
def operandWidth (arguments : List Binding) : Nat :=
  (arguments.filterMap fun a => a.type?.map ColumnType.logicalSize).foldl max 0

def vectorise : PhysicalPlan → Option PhysicalPlan
  | .node group (.function f arguments out) inputs =>
    if f.isVectorised || operandWidth arguments < scope.config.vectorisationThreshold then none
    else f.vectorised?.map fun g => .node group (.function g arguments out) inputs
  | _ => none

/-! ## Index look-ups -/

/-- The look-up of a predicate in an index. -/
def lookupPlan (group : GroupId) (t : TableHandle) (p : Predicate) (x : IndexHandle) :
    PhysicalPlan :=
  .node group (.indexScan x t p) []

/-- A look-up with the columns that the index lacks fetched by row. -/
def fetchPlan (group : GroupId) (t : TableHandle) (cs : List Column) (p : Predicate)
    (x : IndexHandle) : PhysicalPlan :=
  if (Operator.missing cs [x.column]).isEmpty then lookupPlan group t p x
  else .unary (.fetch t (Operator.missing cs [x.column])) (lookupPlan group t p x)

/-- A look-up with all columns brought into the order of the scan. -/
def indexPlan (group : GroupId) (t : TableHandle) (cs : List Column) (p : Predicate)
    (x : IndexHandle) : PhysicalPlan :=
  if (fetchPlan group t cs p x).columns = cs then fetchPlan group t cs p x
  else .unary (.projection (.select cs)) (fetchPlan group t cs p x)

/-- The cheapest of a plan found so far and further candidates, of those that score below the
present plan. Of equals the first one is kept. -/
def cheapest (present : Cost) (best : Option (Binary32 × PhysicalPlan)) :
    List PhysicalPlan → Except Crash (Option (Binary32 × PhysicalPlan))
  | [] => .ok best
  | t :: rest => do
    let cost ← PhysicalPlan.totalCost scope.store scope.bindings t
    match scope.policy.scoreRelative [present, cost] with
    | [old, new] =>
      if new.lt old && best.all (fun b => new.lt b.1) then cheapest present (some (new, t)) rest
      else cheapest present best rest
    | _ => cheapest present best rest

def useIndex : PhysicalPlan → Except Crash (Option PhysicalPlan)
  | .node group (.filter p) [.node g (.scan t cs i 1) below] =>
    if scope.hints.noIndex then .ok none
    else do
      let present ← PhysicalPlan.totalCost scope.store scope.bindings
        (.node group (.filter p) [.node g (.scan t cs i 1) below])
      let usable := (t.indexes scope.store).filter fun x => (scope.store.index x).canProcess p
      let best ← cheapest scope present none (usable.map (indexPlan group t cs p))
      return best.map (·.2)
  | _ => .ok none

/-- The replacement of a node, if the rule fires. -/
def apply : Rule → PhysicalPlan → Except Crash (Option PhysicalPlan)
  | countPushdown, t => .ok (pushCount t)
  | booleanIndexScan, t => useIndex scope t
  | limitingSortMerge, t => .ok (fuseLimit t)
  | externalSort, t => spillSort scope t
  | functionVectorisation, t => .ok (vectorise scope t)

end Rule

/-! ## Weights -/

namespace PhysicalPlan

/-- Scans weigh three, for they may become two nodes, all other operators one. -/
def operatorWeight : Operator → Nat
  | .scan .. => 3
  | _ => 1

def weight (t : PhysicalPlan) : Nat :=
  t.fold fun _ op _ below => operatorWeight op + below.foldr (· + ·) 0

theorem weight_node (group : GroupId) (op : Operator) (inputs : List PhysicalPlan) :
    weight (.node group op inputs) = operatorWeight op + (inputs.map weight).foldr (· + ·) 0 := by
  simp only [weight, PlanTree.fold_node]
  rfl

theorem operatorWeight_pos (op : Operator) : 0 < operatorWeight op := by
  cases op <;> simp [operatorWeight]

theorem weight_le_sum {inputs : List PhysicalPlan} {c : PhysicalPlan} (h : c ∈ inputs) :
    c.weight ≤ (inputs.map weight).foldr (· + ·) 0 := by
  induction inputs with
  | nil => cases h
  | cons d rest ih =>
    simp only [List.map_cons, List.foldr_cons]
    cases h with
    | head => omega
    | tail _ h =>
      have := ih h
      omega

theorem weight_lt_of_mem {group : GroupId} {op : Operator} {inputs : List PhysicalPlan}
    {c : PhysicalPlan} (h : c ∈ inputs) : c.weight < weight (.node group op inputs) := by
  have := weight_le_sum h
  have := operatorWeight_pos op
  rw [weight_node]
  omega

end PhysicalPlan

namespace Rule

open PhysicalPlan (weight weight_node weight_lt_of_mem operatorWeight)

/-- Every input of the second plan weighs less than the first plan. -/
def Lighter (t u : PhysicalPlan) : Prop := ∀ c ∈ u.inputs, weight c < weight t

theorem lighter_of_inputs_eq {g g' : GroupId} {op op' : Operator} {inputs : List PhysicalPlan} :
    Lighter (.node g op inputs) (.node g' op' inputs) :=
  fun _ h => weight_lt_of_mem h

theorem pushCount_lighter {t u : PhysicalPlan} (h : pushCount t = some u) : Lighter t u := by
  unfold pushCount at h
  split at h <;> simp only [Option.some.injEq, reduceCtorEq] at h
  subst h
  exact fun _ h => nomatch h

theorem fuseLimit_lighter {t u : PhysicalPlan} (h : fuseLimit t = some u) : Lighter t u := by
  unfold fuseLimit at h
  split at h <;> simp only [Option.some.injEq, reduceCtorEq] at h <;> subst h <;> intro c h
  · exact Nat.lt_trans (weight_lt_of_mem h) (weight_lt_of_mem (List.mem_singleton.2 rfl))
  · exact Nat.lt_trans (weight_lt_of_mem h) (weight_lt_of_mem (List.mem_singleton.2 rfl))

theorem vectorise_lighter {scope : RewriteScope} {t u : PhysicalPlan}
    (h : vectorise scope t = some u) : Lighter t u := by
  unfold vectorise at h
  split at h
  · split at h
    · cases h
    · obtain ⟨g, _, rfl⟩ := Option.map_eq_some_iff.1 h
      exact lighter_of_inputs_eq
  · cases h

theorem spillSort_lighter {scope : RewriteScope} {t u : PhysicalPlan}
    (h : spillSort scope t = .ok (some u)) : Lighter t u := by
  unfold spillSort at h
  split at h
  · rename_i group order input others
    cases hr : PhysicalPlan.rows scope.store scope.bindings input with
    | error e => simp [hr, bind, Except.bind] at h
    | ok rows =>
      simp only [hr, bind, Except.bind, pure, Except.pure] at h
      split at h
      · cases h
      · cases h
        exact lighter_of_inputs_eq
  · cases h

/-- What holds of the plan found so far and of all candidates holds of the cheapest. -/
theorem of_cheapest {P : PhysicalPlan → Prop} {scope : RewriteScope} {present : Cost}
    {candidates : List PhysicalPlan} {best result : Option (Binary32 × PhysicalPlan)}
    (hbest : ∀ b ∈ best, P b.2) (hall : ∀ t ∈ candidates, P t)
    (h : cheapest scope present best candidates = .ok result) : ∀ b ∈ result, P b.2 := by
  induction candidates generalizing best with
  | nil => cases h; exact hbest
  | cons t rest ih =>
    have hrest : ∀ u ∈ rest, P u := fun u hu => hall u (List.mem_cons_of_mem _ hu)
    unfold cheapest at h
    cases hc : PhysicalPlan.totalCost scope.store scope.bindings t with
    | error e => simp [hc, bind, Except.bind] at h
    | ok cost =>
      simp only [hc, bind, Except.bind] at h
      split at h
      · split at h
        · refine ih ?_ hrest h
          rintro b ⟨⟩
          exact hall t List.mem_cons_self
        · exact ih hbest hrest h
      · exact ih hbest hrest h

theorem weight_fetchPlan (group : GroupId) (t : TableHandle) (cs : List Column) (p : Predicate)
    (x : IndexHandle) : weight (fetchPlan group t cs p x) ≤ 2 := by
  unfold fetchPlan lookupPlan
  split <;> simp [PlanTree.unary, PlanTree.group, weight_node, operatorWeight]

theorem weight_lt_of_mem_indexPlan {group : GroupId} {t : TableHandle} {cs : List Column}
    {p : Predicate} {x : IndexHandle} {c : PhysicalPlan}
    (h : c ∈ (indexPlan group t cs p x).inputs) : weight c < 3 := by
  have hw := weight_fetchPlan group t cs p x
  unfold indexPlan at h
  split at h
  · cases hf : fetchPlan group t cs p x with
    | node g op inputs =>
      rw [hf] at h hw
      have : weight c < weight (.node g op inputs) := weight_lt_of_mem h
      omega
  · rw [PlanTree.unary, PlanTree.inputs, List.mem_singleton] at h
    subst h
    omega

theorem useIndex_lighter {scope : RewriteScope} {t u : PhysicalPlan}
    (h : useIndex scope t = .ok (some u)) : Lighter t u := by
  unfold useIndex at h
  split at h
  · rename_i group p g tb cs i below
    split at h
    · cases h
    · cases hc : PhysicalPlan.totalCost scope.store scope.bindings
          (.node group (.filter p) [.node g (.scan tb cs i 1) below]) with
      | error e => simp [hc, bind, Except.bind] at h
      | ok present =>
        simp only [hc, bind, Except.bind, pure, Except.pure] at h
        split at h
        · cases h
        · rename_i best hb
          simp only [Except.ok.injEq, Option.map_eq_some_iff] at h
          obtain ⟨b, hmem, rfl⟩ := h
          have key := of_cheapest (P := fun u => ∀ c ∈ u.inputs, weight c < 3)
            (by simp)
            (fun u hu c hc => by
              obtain ⟨x, _, rfl⟩ := List.mem_map.1 hu
              exact weight_lt_of_mem_indexPlan hc) hb b hmem
          intro c hc
          have := key c hc
          simp [weight_node, operatorWeight]
          omega
  · cases h

/-- The inputs of a replacement weigh less than the node that is replaced. -/
theorem inputs_weight_lt {scope : RewriteScope} {r : Rule} {t u : PhysicalPlan}
    (h : r.apply scope t = .ok (some u)) : Lighter t u := by
  cases r <;> simp only [apply, Except.ok.injEq] at h
  · exact pushCount_lighter h
  · exact useIndex_lighter h
  · exact fuseLimit_lighter h
  · exact spillSort_lighter h
  · exact vectorise_lighter h

end Rule

end QueryEngine
