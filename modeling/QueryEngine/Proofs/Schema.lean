import QueryEngine.Plan.Builder
import QueryEngine.Proofs.Planning
import QueryEngine.Proofs.Typing

/-!
# Plans honour their schema

A tree that is built from sources upwards, reads only and applies built-in functions is typed for all
literals of their declared types. Rules and splits keep this, so that whatever a planner makes of the
tree gives tuples that honour the columns of the plan, at its root and at every node.
-/

set_option autoImplicit false

namespace QueryEngine

/-! ## Trees that are built -/

/-- Whether a function is one of those that are built in, or the vectorised variant of one. -/
def Function.IsBuiltin (f : Function) : Prop :=
  ∃ name types g, FunctionRegistry.builtins.resolve name types = .ok g ∧
    (f = g ∨ g.vectorised? = some f)

theorem Function.IsBuiltin.isMeasure {f : Function} (h : f.IsBuiltin) : DistanceKind.IsMeasure f := by
  obtain ⟨name, types, g, hg, hf⟩ := h
  obtain ⟨kind, type, returns, hmeasures, _, rfl⟩ := FunctionRegistry.resolve_builtins hg
  exact ⟨kind, type, returns, hmeasures, hf⟩

/-- Whether a binding is no sub-query and no call of a function that is not built in. -/
inductive Binding.Direct : Binding → Prop
  | literal (slot : Nat) (type : Option ColumnType) : Direct (.literal slot type)
  | column (c : Column) : Direct (.column c)
  | call {f : Function} (hf : f.IsBuiltin) (arguments : List Binding) : Direct (.call f arguments)

/-- Builders of trees that only read and apply functions that are built in. -/
inductive PlanBuilder.Reads : PlanBuilder → Prop
  | empty : Reads .empty
  | scan {b : PlanBuilder} (h : Reads b) (t : TableHandle) (cs : List Column) (next : GroupId) :
      Reads (b.scan t cs next).1
  | scanNamed {b : PlanBuilder} (h : Reads b) (t : TableHandle) (names : List String)
      (next : GroupId) : Reads (b.scanNamed t names next).1
  | sample {b : PlanBuilder} (h : Reads b) (t : TableHandle) (cs : List Column) (p : Binary32)
      (seed : UInt64) (next : GroupId) : Reads (b.sample t cs p seed next).1
  | filter {b : PlanBuilder} (h : Reads b) (p : Predicate) : Reads (b.apply (.filter p) [])
  | subselect {b : PlanBuilder} (h : Reads b) (p : Predicate) {queries : List LogicalPlan}
      (hqueries : ∀ u ∈ queries, Reads (.ok (some u))) : Reads (b.subselect p queries)
  | function {b : PlanBuilder} (h : Reads b) (name : String) {arguments : List Binding}
      (harguments : ∀ a ∈ arguments, a.Direct) (out : String) :
      Reads (b.function .builtins name arguments out)
  | fetch {b : PlanBuilder} (h : Reads b) (t : TableHandle) (cs : List Column) :
      Reads (b.apply (.fetch t cs) [])
  | projection {b : PlanBuilder} (h : Reads b) (p : Projection) :
      Reads (b.apply (.projection p) [])
  | sort {b : PlanBuilder} (h : Reads b) (order : SortOrder) : Reads (b.apply (.sort order) [])
  | limit {b : PlanBuilder} (h : Reads b) (bounds : RowLimit) : Reads (b.apply (.limit bounds) [])
  | union {b : PlanBuilder} (h : Reads b) (distinct : Bool) {other : LogicalPlan}
      (hother : Reads (.ok (some other))) : Reads (b.apply (.union distinct) [other])
  | intersect {b : PlanBuilder} (h : Reads b) {other : LogicalPlan}
      (hother : Reads (.ok (some other))) : Reads (b.apply .intersect [other])

/-- Whether a literal holds null or a value of its declared type. -/
def Bindings.fits (b : Bindings) : Binding → Bool
  | .literal slot (some type) => (b.literal slot).toOption.all type.accepts
  | _ => true

/-- Calls of functions that are built in have numbers as their results, so that vectors are columns or
literals. -/
theorem Binding.Direct.hasType {a : Binding} (h : a.Direct) {b : Bindings} (hfit : b.fits a = true)
    {type returns : ColumnType} (hmeasures : DistanceKind.Measures type returns)
    (htype : a.type? = some type) : a.HasType b.slots type := by
  cases h with
  | literal slot declared =>
    cases htype
    apply Binding.HasType.literal
    intro v hv
    rw [Bindings.fits, Bindings.literal_eq_ok.2 hv] at hfit
    exact hfit
  | column c =>
    cases htype
    exact .column c
  | call hf arguments =>
    obtain ⟨_, _, _, hresult, hsignature⟩ := hf.isMeasure.signature
    rw [Binding.type?, hsignature] at htype
    cases htype
    cases hresult <;> cases hmeasures

namespace Operator

/-- Whether an operator is the counterpart of a step of such a builder. -/
def Built : Operator → Prop
  | rowCount .. => False
  | indexScan .. => False
  | function f arguments out => DistanceKind.IsMeasure f ∧ (∀ a ∈ arguments, a.Direct) ∧
    List.Forall₂ (fun a type => a.type? = some type) arguments f.signature.arguments ∧
      out = ⟨out.name, f.signature.returns, true⟩
  | op => op.writes = false

theorem Built.wellTyped {op : Operator} (h : op.Built) (x : Store) {b : Bindings}
    (hfit : op.bindings.all b.fits = true) : op.WellTyped x b.slots := by
  cases op with
  | function f arguments out =>
    obtain ⟨hf, hdirect, htypes, hout⟩ := h
    refine ⟨hf, ?_, hout⟩
    obtain ⟨kind, type, returns, hmeasures, hsignature⟩ := hf.signature
    have hargument (a : Binding) (ha : a ∈ arguments) (htype : a.type? = some type) :
        a.HasType b.slots type :=
      (hdirect a ha).hasType (List.all_eq_true.1 hfit a ha) hmeasures htype
    rw [hsignature] at htypes ⊢
    obtain ⟨a, rest, ha, hrest, rfl⟩ := List.forall₂_cons_right_iff.1 htypes
    obtain ⟨a', rest', ha', hnil, rfl⟩ := List.forall₂_cons_right_iff.1 hrest
    cases hnil
    exact .cons (hargument a List.mem_cons_self ha)
      (.cons (hargument a' (List.mem_cons_of_mem a List.mem_cons_self) ha') .nil)
  | rowCount t out => cases h
  | indexScan i t p => cases h
  | insert t values => cases h
  | update t values => cases h
  | delete t => cases h
  | _ => rfl

end Operator

namespace PlanBuilder

open PhysicalPlan (every_node)
open LogicalPlan (implement implement_node)

variable {b : PlanBuilder} {t : LogicalPlan} {op : LogicalOperator}

theorem source_eq_ok {next : GroupId} (h : (b.source op next).1 = .ok (some t)) :
    t = .node next op [] := by
  unfold source at h
  split at h
  · cases h
  · cases h
  · cases h
    rfl

theorem apply_eq_ok {others : List LogicalPlan} (h : b.apply op others = .ok (some t)) :
    ∃ below, b = .ok (some below) ∧ t = .node below.group op (below :: others) := by
  unfold apply at h
  split at h
  · cases h
  · cases h
  · cases h
    exact ⟨_, rfl, rfl⟩

theorem types_eq_some {arguments : List Binding} :
    ∀ {types}, arguments.mapM Binding.type? = some types →
      List.Forall₂ (fun a type => a.type? = some type) arguments types := by
  induction arguments with
  | nil =>
    intro types h
    cases h
    exact .nil
  | cons a rest ih =>
    intro types h
    rw [List.mapM_cons] at h
    obtain ⟨type, htype, h⟩ := Option.bind_eq_some_iff.1 h
    obtain ⟨others, hothers, h⟩ := Option.bind_eq_some_iff.1 h
    cases h
    exact .cons htype (ih hothers)

theorem function_eq_ok {registry : FunctionRegistry} {name out : String} {arguments : List Binding}
    (h : b.function registry name arguments out = .ok (some t)) :
    ∃ types f, List.Forall₂ (fun a type => a.type? = some type) arguments types ∧
      registry.resolve name types = .ok f ∧
        b.apply (.function f arguments ⟨out, f.signature.returns, true⟩) [] = .ok (some t) := by
  unfold function at h
  split at h
  · cases h
  · split at h
    · cases h
    · rename_i types htypes
      split at h
      · cases h
      · rename_i f hf
        exact ⟨types, f, types_eq_some htypes, hf, h⟩

theorem every_source {next : GroupId} (h : (b.source op next).1 = .ok (some t))
    (hop : op.implement.Built) : t.implement.Every Operator.Built := by
  rw [source_eq_ok h, implement_node]
  exact every_node.2 ⟨hop, List.forall_mem_nil _⟩

theorem every_apply {others : List LogicalPlan}
    (hb : ∀ {t}, b = .ok (some t) → (implement t).Every Operator.Built)
    (hothers : ∀ u ∈ others, (implement u).Every Operator.Built)
    (h : b.apply op others = .ok (some t)) (hop : op.implement.Built) :
    t.implement.Every Operator.Built := by
  obtain ⟨below, hbelow, rfl⟩ := apply_eq_ok h
  rw [implement_node]
  refine every_node.2 ⟨hop, ?_⟩
  rw [List.forall_mem_map]
  exact List.forall_mem_cons.2 ⟨hb hbelow, hothers⟩

theorem Reads.every_built (h : b.Reads) :
    ∀ {t}, b = .ok (some t) → (implement t).Every Operator.Built := by
  have hnone : ∀ u ∈ ([] : List LogicalPlan), (implement u).Every Operator.Built :=
    List.forall_mem_nil _
  induction h with
  | empty =>
    intro t ht
    cases ht
  | scan _ table cs next ih => exact fun ht => every_source ht rfl
  | scanNamed _ table names next ih =>
    intro t ht
    unfold PlanBuilder.scanNamed at ht
    split at ht
    · cases ht
    · exact every_source ht rfl
  | sample _ table cs p seed next ih =>
    intro t ht
    unfold PlanBuilder.sample at ht
    split at ht
    · cases ht
    · split at ht
      · exact every_source ht rfl
      · cases ht
  | filter _ p ih => exact fun ht => every_apply ih hnone ht rfl
  | subselect _ p _ ih ihQueries =>
    intro t ht
    unfold PlanBuilder.subselect at ht
    split at ht
    · cases ht
    · split at ht
      · cases ht
      · exact every_apply ih (fun u hu => ihQueries u hu rfl) ht rfl
  | function _ name harguments out ih =>
    intro t ht
    obtain ⟨types, f, htypes, hf, ht⟩ := function_eq_ok ht
    apply every_apply ih hnone ht
    refine ⟨Function.IsBuiltin.isMeasure ⟨name, types, f, hf, .inl rfl⟩, harguments, ?_, rfl⟩
    obtain ⟨kind, type, returns, _, rfl, rfl⟩ := FunctionRegistry.resolve_builtins hf
    exact htypes
  | fetch _ table cs ih => exact fun ht => every_apply ih hnone ht rfl
  | projection _ p ih => exact fun ht => every_apply ih hnone ht rfl
  | sort _ order ih => exact fun ht => every_apply ih hnone ht rfl
  | limit _ bounds ih => exact fun ht => every_apply ih hnone ht rfl
  | union _ distinct _ ih ihOther =>
    exact fun ht => every_apply ih (List.forall_mem_singleton.2 (ihOther rfl)) ht rfl
  | intersect _ _ ih ihOther =>
    exact fun ht => every_apply ih (List.forall_mem_singleton.2 (ihOther rfl)) ht rfl

end PlanBuilder

/-! ## Rules and splits -/

/-- Whether all indexes of a store are still there in another one, on the same columns. -/
def Store.KeepsIndexes (s s' : Store) : Prop :=
  ∀ i y, s.index? i = some y → ∃ y', s'.index? i = some y' ∧ y'.column = y.column

namespace Operator

variable {x : Store} {slots : List (Option Value)}

theorem kept_wellTyped {scope : RewriteScope} (h : scope.store.KeepsIndexes x) :
    Rule.Kept scope (WellTyped x slots) where
  count _ := rfl
  lookUp _ _ hi _ := by
    obtain ⟨_, y, hy, hcolumn⟩ := TableHandle.index?_of_mem hi
    -- The index may list other rows by now; only its column matters.
    obtain ⟨y', hy', hsame⟩ := h _ y hy
    exact ⟨y', hy', hsame.trans hcolumn⟩
  fetch _ _ := rfl
  select _ := rfl
  fuse _ _ _ := rfl
  spill _ _ := rfl
  vectorise hf h := by
    obtain ⟨hmeasure, harguments, hout⟩ := h
    have hsame := hmeasure.vectorised hf
    obtain ⟨kernel, _, rfl⟩ := Option.map_eq_some_iff.1 hf
    exact ⟨hsame, harguments, hout⟩

theorem splitKept_wellTyped : PhysicalPlan.SplitKept (WellTyped x slots) where
  restrict {op} i p h := by
    cases op <;> exact h
  merge := rfl
  limitingSort _ _ := rfl
  mergeLimitingSort _ := rfl

end Operator

/-! ## What planning makes of a tree -/

namespace Planning

variable {t : LogicalPlan} {maxWorkers : Nat} {st st' : PlanningState}

theorem run_split {u : PhysicalPlan} {made : PhysicalPlan × Nat}
    (h : (split maxWorkers u).run.run.run st = (.ok (.ok made), st')) :
    made.1 = u ∨ ∃ p next next', u.tryPartition p next = some (made.1, next') := by
  unfold split at h
  obtain ⟨_, _, _, h⟩ := run_bind_eq_ok.1 h
  obtain ⟨workers, _, _, h⟩ := run_bind_eq_ok.1 h
  split at h
  · cases h
    exact .inl rfl
  · rename_i v next' hsplit
    obtain ⟨_, _, _, h⟩ := run_bind_eq_ok.1 h
    obtain ⟨_, _, _, h⟩ := run_bind_eq_ok.1 h
    cases h
    split at hsplit
    · exact .inr ⟨_, _, next', hsplit⟩
    · cases hsplit

/-- A finished plan comes from the implemented tree by firings and by one split at most. -/
inductive Makes (scope : RewriteScope) (rules : List Rule) (t : PhysicalPlan) : PhysicalPlan → Prop
  | whole {u : PhysicalPlan} : FiresMany scope rules t u → Makes scope rules t u
  | split {u v : PhysicalPlan} {p : Nat} {next next' : GroupId} : FiresMany scope rules t u →
      u.tryPartition p next = some (v, next') → Makes scope rules t v

theorem run_optimise {made : PlannedTree}
    (h : (optimise t maxWorkers).run.run.run st = (.ok (.ok made), st')) :
    Makes (Planner.scope st.planner.config st.engine.store st.query) st.planner.rules t.implement
      made.plan := by
  unfold optimise at h
  obtain ⟨_, _, hget, h⟩ := run_bind_eq_ok.1 h
  cases hget
  obtain ⟨out, _, hout, h⟩ := run_bind_eq_ok.1 h
  have hfires : FiresMany (Planner.scope st.planner.config st.engine.store st.query)
      st.planner.rules t.implement out.plan := by
    generalize hr : RewriteOutcome.rewrite _ _ _ = r at hout
    rcases r with c | e | a
    · cases hout
    · cases hout
    · cases hout
      exact RewriteOutcome.proceed_fires hr
  obtain ⟨_, _, _, h⟩ := run_bind_eq_ok.1 h
  obtain ⟨_, _, _, h⟩ := run_bind_eq_ok.1 h
  obtain ⟨⟨u, partitions⟩, _, hsplit, h⟩ := run_bind_eq_ok.1 h
  cases h
  rcases run_split hsplit with rfl | ⟨p, next, next', hsplit⟩
  · exact .whole hfires
  · exact .split hfires hsplit

/-- What a tree and its plan have to do with each other if the plan was not cached. -/
theorem makes_of_plan {p : QueryPlan} (h : result (plan t maxWorkers) st = pure p)
    (hmiss : st.planner.cache.get? (Planner.cacheKey t st.query maxWorkers) = none) :
    t.validate = .ok () ∧ Makes (Planner.scope st.planner.config st.engine.store st.query)
      st.planner.rules t.implement p.plan := by
  have hrun : ∃ st', (plan t maxWorkers).run.run.run st = (.ok (.ok p), st') :=
    ⟨((plan t maxWorkers).run.run.run st).2, Prod.ext h rfl⟩
  obtain ⟨st', hrun⟩ := hrun
  unfold plan at hrun
  obtain ⟨_, _, hget, hrun⟩ := run_bind_eq_ok.1 hrun
  cases hget
  obtain ⟨_, _, hcheck, hrun⟩ := run_bind_eq_ok.1 hrun
  obtain ⟨hvalid, rfl⟩ := run_ofCheck_eq_ok hcheck
  split at hrun
  · cases hrun
  · obtain ⟨⟨entry, hit⟩, _, hobtain, hrun⟩ := run_bind_eq_ok.1 hrun
    obtain ⟨_, _, _, hrun⟩ := run_bind_eq_ok.1 hrun
    obtain ⟨_, _, _, hrun⟩ := run_bind_eq_ok.1 hrun
    cases hrun
    unfold obtain at hobtain
    obtain ⟨_, _, hget, hobtain⟩ := run_bind_eq_ok.1 hobtain
    cases hget
    dsimp only at hobtain
    rw [hmiss] at hobtain
    obtain ⟨made, _, hmade, hobtain⟩ := run_bind_eq_ok.1 hobtain
    obtain ⟨_, _, _, hobtain⟩ := run_bind_eq_ok.1 hobtain
    cases hobtain
    exact ⟨hvalid, run_optimise hmade⟩

theorem Makes.conforms {scope : RewriteScope} {rules : List Rule} {u v : PhysicalPlan}
    (h : Makes scope rules u v) (hu : u.validate = .ok ()) : PhysicalPlan.Conforms u v := by
  cases h with
  | whole hfires => exact FiresMany.conforms hfires hu
  | split hfires hsplit =>
    have hconforms : PhysicalPlan.Conforms u _ := FiresMany.conforms hfires hu
    exact hconforms.trans (PhysicalPlan.tryPartition_conforms hconforms.valid hsplit)

theorem Makes.every {scope : RewriteScope} {rules : List Rule} {u v : PhysicalPlan}
    {P : Operator → Prop} (hkept : Rule.Kept scope P) (hsplit : PhysicalPlan.SplitKept P)
    (h : Makes scope rules u v) (hu : u.Every P) : v.Every P := by
  cases h with
  | whole hfires => exact Fires.every_of_many hkept hfires hu
  | split hfires htry =>
    exact PhysicalPlan.every_tryPartition hsplit (Fires.every_of_many hkept hfires hu) htry

end Planning

/-- Every tuple that a plan gives, or that the stream of one of its nodes gives to another node,
honours the columns of the plan or of that node. The plan may be run on later tables, with other
literals than those that it was made with. -/
theorem Planning.plan_honours {b : PlanBuilder} (hreads : b.Reads) {t : LogicalPlan}
    (hbuild : b.build = .ok t) {maxWorkers : Nat} {st : PlanningState}
    (hmiss : st.planner.cache.get? (Planner.cacheKey t st.query maxWorkers) = none) {p : QueryPlan}
    (hplan : result (plan t maxWorkers) st = pure p) {e : EngineState}
    (hindexes : st.engine.store.KeepsIndexes e.store)
    (htables : ∀ x ∈ e.store.tables, x.Reachable) {q : QueryContext}
    (hfits : t.implement.Every fun op => op.bindings.all q.bindings.fits = true)
    (limits : RunLimits) :
    (∀ u ∈ p.plan.subtrees, ∀ (before after : LoweringState) (v : TupleStream),
      before.run.Over e.store q.bindings.slots →
      Lowering.lower limits u before = (.ok v, after) →
        v.Supplies (RunState.Over e.store q.bindings.slots) (Tuple.Honours (PhysicalPlan.columns u)) ∧
          after.run.Over e.store q.bindings.slots) ∧
    ∀ r, p.plan.execute limits q e = pure r → ∀ u ∈ r.rows, u.Honours p.plan.columns := by
  have ht : b = .ok (some t) := by
    unfold PlanBuilder.build at hbuild
    split at hbuild
    · cases hbuild
    · cases hbuild
    · cases hbuild
      rfl
  obtain ⟨hvalid, hmakes⟩ := makes_of_plan hplan hmiss
  have hbuilt := hreads.every_built ht
  have htyped : t.implement.Every (Operator.WellTyped e.store q.bindings.slots) :=
    fun u hu => (hbuilt u hu).wellTyped e.store (hfits u hu)
  have hwell : p.plan.WellTyped e.store q.bindings.slots :=
    ⟨(hmakes.conforms hvalid).valid,
      hmakes.every (Operator.kept_wellTyped hindexes) Operator.splitKept_wellTyped htyped,
      fun n => Store.table_sound htables n⟩
  refine ⟨fun u hu before after v hs hv => ?_, fun r hr => ?_⟩
  · obtain ⟨hsupplies, hcounted⟩ := (hwell.subtree hu).supplies limits hs hv
    exact ⟨hsupplies, (RunState.lasting_over _ _).recount hs hcounted⟩
  · exact hwell.execute ⟨rfl, rfl⟩ hr

namespace Places

def id : Column := ⟨"p.id", .long, false⟩

def spot : Column := ⟨"p.spot", .floatVector 2, true⟩

def corner : Value := .floatVector [.ofNat 1, .ofNat 1]

def place (row : RowId) (n : Int64) (v : Value) : RowId × List Value := (row, [.long n, v])

def table : Table :=
  ⟨"p", [id, spot], [place 0 7 corner, place 1 8 .null], 2,
    [⟨"p.idx_id", id, [(.long 7, [0]), (.long 8, [1])], 2⟩], 0⟩

theorem table_reachable : table.Reachable := by
  have hempty := Table.Reachable.empty "p" [id, spot]
  have hfirst : (Table.empty "p" [id, spot]).insert [id, spot] [.long 7, corner] =
      .ok (0, ⟨"p", [id, spot], [place 0 7 corner], 1, [], 0⟩) := by decide +kernel
  have hsecond : (⟨"p", [id, spot], [place 0 7 corner], 1, [], 0⟩ : Table).insert [id] [.long 8] =
      .ok (1, { table with indexes := [] }) := by decide +kernel
  have hindex : Table.createIndex { table with indexes := [] } id = .ok table := by decide +kernel
  exact .createIndex (.insert (.insert hempty (by decide) hfirst) (by decide) hsecond) hindex

def engine : EngineState := ⟨⟨[table]⟩, .empty⟩

def query : QueryContext := ⟨.none, .standard, ⟨[some (.long 7), some corner], []⟩, 1, false⟩

def wanted : Predicate := .atom (.relation .equal (.column id) (.literal 0 (some .long))) false

/-- The distance of the wanted place from a corner. -/
def distance : PlanBuilder :=
  ((PlanBuilder.empty.scan (engine.store.handle 0) [] 0).1.apply (.filter wanted) []).function
    .builtins "Manhattan" [.column spot, .literal 1 (some (.floatVector 2))] "distance"

theorem distance_reads : distance.Reads := by
  apply PlanBuilder.Reads.function
  · exact .filter (.scan .empty _ _ _) wanted
  · intro a ha
    rcases List.mem_cons.1 ha with rfl | ha
    · exact .column spot
    · rw [List.mem_singleton.1 ha]
      exact .literal 1 _

def tree : LogicalPlan := distance.build.toOption.getD (.node 0 .intersect [])

def planning : PlanningState :=
  ⟨engine, query, ⟨{ PlannerConfig.standard with vectorisationThreshold := 2 }, Rule.all, ⟨1, []⟩⟩⟩

def limits : RunLimits := ⟨1, 1, true⟩

end Places

/-- Whether something comes to a result that passes a test. -/
def Fallible.passes {ε α : Type} (r : Fallible ε α) (test : α → Bool) : Bool :=
  match r with
  | .ok (.ok a) => test a
  | _ => false

theorem Fallible.exists_of_passes {ε α : Type} {r : Fallible ε α} {test : α → Bool}
    (h : r.passes test = true) : ∃ a, r = pure a ∧ test a = true := by
  unfold passes at h
  split at h
  · exact ⟨_, rfl, h⟩
  · cases h

open Places in
/-- The place is looked up in the index, its spot is fetched, and its distance is computed by the
vectorised kernel. -/
theorem Planning.plan_honours_distance : ∃ p r, result (plan tree 2) planning = pure p ∧
    p.plan.subtrees.map (fun u => u.op.name) = ["Function", "Fetch", "IndexScan"] ∧
    p.plan.execute limits query engine = pure r ∧ r.rows.length = 1 ∧
    (∀ u ∈ p.plan.subtrees, ∀ (before after : LoweringState) (v : TupleStream),
      before.run.Over engine.store query.bindings.slots →
      Lowering.lower limits u before = (.ok v, after) →
        v.Supplies (RunState.Over engine.store query.bindings.slots)
          (Tuple.Honours (PhysicalPlan.columns u)) ∧
            after.run.Over engine.store query.bindings.slots) ∧
    ∀ u ∈ r.rows, u.Honours p.plan.columns := by
  have hpasses : (result (plan tree 2) planning).passes (fun p =>
      p.plan.subtrees.map (fun u => u.op.name) = ["Function", "Fetch", "IndexScan"] &&
        (p.plan.execute limits query engine).passes fun r => r.rows.length = 1) = true := by
    decide +kernel
  obtain ⟨p, hplan, htest⟩ := Fallible.exists_of_passes hpasses
  rw [Bool.and_eq_true] at htest
  obtain ⟨r, hrun, hrows⟩ := Fallible.exists_of_passes htest.2
  have hhonours := plan_honours distance_reads (t := tree) rfl rfl hplan (e := engine)
    (fun i y hy => ⟨y, hy, rfl⟩) (List.forall_mem_singleton.2 table_reachable) (q := query)
    (show ∀ u ∈ tree.implement.subtrees, u.op.bindings.all query.bindings.fits = true by decide +kernel)
    limits
  exact ⟨p, r, hplan, of_decide_eq_true htest.1, hrun, of_decide_eq_true hrows, hhonours.1,
    hhonours.2 r hrun⟩

end QueryEngine
