import QueryEngine.Proofs.Workers

/-!
# Plans that run alike

Two plans are the same up to what no operator looks at: the declared types of slots and the groups
of all inputs but sub-queries. Such plans are set up as the same stream, so that their executions
differ at most in where a crash shows.
-/

set_option autoImplicit false

namespace QueryEngine

/-! ## Bindings without types -/

namespace Binding

mutual

/-- A binding without the declared types of slots. -/
def untyped : Binding → Binding
  | literal slot _ => literal slot none
  | column c => column c
  | call f arguments => call f (untypedAll arguments)
  | subquery group c => subquery group c

def untypedAll : List Binding → List Binding
  | [] => []
  | b :: rest => b.untyped :: untypedAll rest

end

theorem untypedAll_eq_map (bs : List Binding) : untypedAll bs = bs.map untyped := by
  induction bs with
  | nil => rfl
  | cons b rest ih => rw [untypedAll, ih, List.map_cons]

theorem isSubquery_untyped (b : Binding) : b.untyped.isSubquery = b.isSubquery := by
  cases b <;> simp only [untyped, isSubquery]

theorem untyped_of_isSubquery {b : Binding} (h : b.isSubquery = true) : b.untyped = b := by
  cases b with
  | subquery group c => rfl
  | _ => cases h

end Binding

namespace Bindings

variable (b : Bindings) (tuple : Option Tuple)

mutual

theorem resolve_untyped : ∀ v : Binding, b.resolve tuple v.untyped = b.resolve tuple v
  | .literal _ _ => rfl
  | .column _ => rfl
  | .call f arguments => by
    rw [Binding.untyped, resolve, resolve, resolveEach_untypedAll arguments]
  | .subquery _ _ => rfl

theorem resolveEach_untypedAll :
    ∀ vs : List Binding, b.resolveEach tuple (Binding.untypedAll vs) = b.resolveEach tuple vs
  | [] => rfl
  | v :: rest => by
    rw [Binding.untypedAll, resolveEach, resolveEach, resolve_untyped v, resolveEach_untypedAll rest]

end

theorem resolveEach_untyped (vs : List Binding) :
    b.resolveEach tuple (vs.map Binding.untyped) = b.resolveEach tuple vs := by
  rw [← Binding.untypedAll_eq_map, resolveEach_untypedAll]

theorem resolveAll_untyped (v : Binding) : b.resolveAll tuple v.untyped = b.resolveAll tuple v := by
  cases v with
  | call f arguments =>
    exact congrArg (Except.map fun v => [v]) (resolve_untyped b tuple (.call f arguments))
  | _ => rfl

mutual

theorem check_untyped : ∀ v : Binding, b.check v.untyped = b.check v
  | .literal _ _ => rfl
  | .column _ => rfl
  | .call _ arguments => by
    rw [Binding.untyped, check, check, checkAll_untypedAll arguments]
  | .subquery _ _ => rfl

theorem checkAll_untypedAll : ∀ vs : List Binding, b.checkAll (Binding.untypedAll vs) = b.checkAll vs
  | [] => rfl
  | v :: rest => by
    rw [Binding.untypedAll, checkAll, checkAll, check_untyped v, checkAll_untypedAll rest]

end

theorem checkAll_untyped (vs : List Binding) :
    b.checkAll (vs.map Binding.untyped) = b.checkAll vs := by
  rw [← Binding.untypedAll_eq_map, checkAll_untypedAll]

end Bindings

/-! ## Predicates without types -/

namespace Comparison

def untyped : Comparison → Comparison
  | relation r left right => relation r left.untyped right.untyped
  | between value lower upper => between value.untyped lower.untyped upper.untyped
  | oneOf value list => oneOf value.untyped (list.map Binding.untyped)
  | isNull value => isNull value.untyped
  | like value pattern => like value.untyped pattern.untyped

theorem bindings_untyped (c : Comparison) : c.untyped.bindings = c.bindings.map Binding.untyped := by
  cases c <;> simp [untyped, bindings]

theorem isAmong_untyped (b : Bindings) (t : Tuple) (v : Value) (list : List Binding) :
    isAmong b t v (list.map Binding.untyped) = isAmong b t v list := by
  induction list with
  | nil => rfl
  | cons candidate rest ih =>
    rw [List.map_cons, isAmong, isAmong, Bindings.resolveAll_untyped, ih]

theorem holds_untyped (c : Comparison) (b : Bindings) (t : Tuple) :
    c.untyped.holds b t = c.holds b t := by
  cases c <;> simp only [untyped, holds, Bindings.resolve_untyped, isAmong_untyped]

end Comparison

namespace Predicate

def untyped : Predicate → Predicate
  | literal value => literal value
  | atom c negated => atom c.untyped negated
  | both left right => both left.untyped right.untyped
  | either left right => either left.untyped right.untyped

theorem holds_untyped (p : Predicate) (b : Bindings) (t : Tuple) :
    p.untyped.holds b t = p.holds b t := by
  induction p with
  | literal value => rfl
  | atom c negated => simp only [untyped, holds, Comparison.holds_untyped]
  | both left right ihl ihr => simp only [untyped, holds, ihl, ihr]
  | either left right ihl ihr => simp only [untyped, holds, ihl, ihr]

theorem bindings_untyped (p : Predicate) : p.untyped.bindings = p.bindings.map Binding.untyped := by
  induction p with
  | literal value => rfl
  | atom c negated => simp [untyped, bindings, atoms, Comparison.bindings_untyped]
  | both left right ihl ihr =>
    simp only [bindings] at ihl ihr ⊢
    rw [untyped, atoms, atoms, List.flatMap_append, List.flatMap_append, ihl, ihr, List.map_append]
  | either left right ihl ihr =>
    simp only [bindings] at ihl ihr ⊢
    rw [untyped, atoms, atoms, List.flatMap_append, List.flatMap_append, ihl, ihr, List.map_append]

theorem subqueries_untyped (p : Predicate) : p.untyped.subqueries = p.subqueries := by
  rw [subqueries, bindings_untyped, subqueries]
  induction p.bindings with
  | nil => rfl
  | cons b rest ih =>
    rw [List.map_cons, List.filter_cons, List.filter_cons, Binding.isSubquery_untyped, ih]
    split
    · rename_i hb
      rw [Binding.untyped_of_isSubquery hb]
    · rfl

end Predicate

/-! ## Operators without types -/

namespace Operator

/-- An operator of a logical plan without the declared types of slots. -/
def untyped : Operator → Operator
  | filter p => filter p.untyped
  | subselect p => subselect p.untyped
  | function f arguments out => function f (arguments.map Binding.untyped) out
  | insert t values => insert t (values.map fun v => (v.1, v.2.untyped))
  | update t values => update t (values.map fun v => (v.1, v.2.untyped))
  | op => op

theorem columns_untyped (op : Operator) (input : List Column) :
    op.untyped.columns input = op.columns input := by
  cases op <;> rfl

theorem checkAll_untyped (op : Operator) (b : Bindings) :
    b.checkAll op.untyped.bindings = b.checkAll op.bindings := by
  have hvalues (values : Assignments) :
      (values.map fun v => (v.1, v.2.untyped)).map (·.2) = (values.map (·.2)).map Binding.untyped := by
    rw [List.map_map, List.map_map]
    rfl
  cases op with
  | filter p => exact (congrArg b.checkAll p.bindings_untyped).trans (b.checkAll_untyped _)
  | subselect p => exact (congrArg b.checkAll p.bindings_untyped).trans (b.checkAll_untyped _)
  | function f arguments out => exact b.checkAll_untyped _
  | insert t values => exact (congrArg b.checkAll (hvalues values)).trans (b.checkAll_untyped _)
  | update t values => exact (congrArg b.checkAll (hvalues values)).trans (b.checkAll_untyped _)
  | _ => rfl

end Operator

namespace TupleStream

theorem filter_untyped (p : Predicate) (t : TupleStream) : t.filter p.untyped = t.filter p := by
  simp only [filter, Predicate.holds_untyped]

theorem subselect_untyped (p : Predicate) (groups : List GroupId) (ts : List TupleStream) :
    subselect p.untyped groups ts = subselect p groups ts := by
  have hcolumn : columnRead? p.untyped = columnRead? p := by
    funext group
    rw [columnRead?, columnRead?, Predicate.subqueries_untyped]
  have hbind (inputs : List (GroupId × TupleStream)) :
      bindSubqueries p.untyped inputs = bindSubqueries p inputs := by
    induction inputs with
    | nil => rfl
    | cons input rest ih =>
      funext s
      simp only [bindSubqueries, hcolumn, ih]
  simp only [subselect, hbind, filter_untyped]

end TupleStream

theorem Lowering.stream_untyped (limits : RunLimits) (s : RunState) (op : Operator)
    (cs : List Column) (groups : List GroupId) (ts : List TupleStream) :
    stream limits s op.untyped cs groups ts = stream limits s op cs groups ts := by
  have hnames (values : Assignments) :
      (values.map fun v => (v.1, v.2.untyped)).map (·.1) = values.map (·.1) := by
    rw [List.map_map]
    rfl
  have hvalues (values : Assignments) :
      TupleStream.resolveValues (values.map fun v => (v.1, v.2.untyped)) =
        TupleStream.resolveValues values := by
    funext u s
    rw [TupleStream.resolveValues, TupleStream.resolveValues, ← Bindings.resolveEach_untyped _ _
      (values.map (·.2)), List.map_map, List.map_map]
    rfl
  cases op with
  | filter p => simp only [Operator.untyped, stream, single, Operator.name, TupleStream.filter_untyped]
  | subselect p => simp only [Operator.untyped, stream, TupleStream.subselect_untyped]
  | function f arguments out =>
    simp only [Operator.untyped, stream, single, Operator.name, TupleStream.apply,
      Bindings.resolveEach_untyped]
  | insert t values =>
    simp only [Operator.untyped, stream, TupleStream.insert, hnames, hvalues]
  | update t values =>
    have hrow : TupleStream.updateRow t (values.map fun v => (v.1, v.2.untyped)) =
        TupleStream.updateRow t values := by
      funext u s
      simp only [TupleStream.updateRow, hnames, hvalues]
    simp only [Operator.untyped, stream, single, Operator.name, TupleStream.update, hrow]
  | _ => rfl

/-! ## Plans -/

namespace PhysicalPlan

/-- Whether two plans differ at most in the declared types of slots and in groups that are not
those of sub-queries. -/
def Same (t : PhysicalPlan) : PhysicalPlan → Prop :=
  t.fold fun _ op inputs below u =>
    op.untyped = u.op.untyped ∧
      op.readGroups (inputs.map PlanTree.group) = u.op.readGroups (u.inputs.map PlanTree.group) ∧
      List.Forall₂ (fun same v => same v) below u.inputs

theorem same_node {g g' : GroupId} {op op' : Operator} {inputs inputs' : List PhysicalPlan} :
    Same (.node g op inputs) (.node g' op' inputs') ↔ op.untyped = op'.untyped ∧
      op.readGroups (inputs.map PlanTree.group) = op'.readGroups (inputs'.map PlanTree.group) ∧
      List.Forall₂ Same inputs inputs' := by
  rw [Same, PlanTree.fold_node, List.forall₂_map_left_iff]
  rfl

/-- What is computed alike from inputs that are the same is computed alike from the same plans. -/
theorem Same.map_eq {β : Type} {f : PhysicalPlan → β} {inputs inputs' : List PhysicalPlan}
    (h : List.Forall₂ Same inputs inputs') (hf : ∀ t ∈ inputs, ∀ u, Same t u → f t = f u) :
    inputs.map f = inputs'.map f := by
  induction h with
  | nil => rfl
  | @cons t u rest rest' htu _ ih =>
    rw [List.map_cons, List.map_cons, hf t List.mem_cons_self u htu,
      ih fun v hv => hf v (List.mem_cons_of_mem _ hv)]

theorem Same.columns_eq {t u : PhysicalPlan} (h : t.Same u) : t.columns = u.columns := by
  induction t using PlanTree.induct generalizing u with
  | node g op inputs ih =>
    obtain ⟨g', op', inputs'⟩ := u
    obtain ⟨hop, -, hinputs⟩ := same_node.1 h
    rw [columns_node, columns_node, Same.map_eq hinputs fun t ht u hu => ih t ht hu,
      ← op.columns_untyped, hop, op'.columns_untyped]

theorem Same.bind_eq {t u : PhysicalPlan} (h : t.Same u) (b : Bindings) : t.bind b = u.bind b := by
  induction t using PlanTree.induct generalizing u with
  | node g op inputs ih =>
    obtain ⟨g', op', inputs'⟩ := u
    obtain ⟨hop, -, hinputs⟩ := same_node.1 h
    have hall := Same.map_eq (f := fun v => bind v b) hinputs fun t ht u hu => ih t ht hu
    simp only [bind] at hall ⊢
    rw [PlanTree.fold_node, PlanTree.fold_node, hall, ← op.checkAll_untyped, hop,
      op'.checkAll_untyped]

/-- Plans that are the same are set up as one stream. -/
theorem Same.inline_eq {t u : PhysicalPlan} (h : t.Same u) (canSpill : Bool) (s : RunState) :
    t.inline canSpill s = u.inline canSpill s := by
  induction t using PlanTree.induct generalizing u with
  | node g op inputs ih =>
    obtain ⟨g', op', inputs'⟩ := u
    obtain ⟨hop, hgroups, hinputs⟩ := same_node.1 h
    have hstreams : inputs.mapM (inline canSpill s) = inputs'.mapM (inline canSpill s) := by
      simpa only [List.mapM_map, Function.id_comp] using
        congrArg (List.mapM id) (Same.map_eq hinputs fun t ht u hu => ih t ht hu)
    have hcolumns : inputs.map columns = inputs'.map columns :=
      Same.map_eq hinputs fun t _ u hu => hu.columns_eq
    rw [inline_node, inline_node, hstreams, hcolumns]
    congr 1
    funext ts
    have hread : op.readGroups (inputs.map PlanTree.group) =
        op.untyped.readGroups (inputs.map PlanTree.group) := by cases op <;> rfl
    have hread' : op'.readGroups (inputs'.map PlanTree.group) =
        op'.untyped.readGroups (inputs'.map PlanTree.group) := by cases op' <;> rfl
    rw [hread, hread', hop] at hgroups
    rw [← Lowering.stream_untyped, ← Lowering.stream_untyped _ _ op', hop,
      ← op.columns_untyped, hop, op'.columns_untyped]
    generalize op'.untyped = op'' at hgroups
    -- The groups are read by sub-queries only.
    cases op'' with
    | subselect p =>
      have htail : (inputs.map PlanTree.group).tail = (inputs'.map PlanTree.group).tail := hgroups
      simp only [Lowering.stream, htail]
    | _ => rfl

end PhysicalPlan

/-! ## Executions -/

/-- Executions that are refused alike, or that give the same tuples, end alike up to where a crash
shows and leave the same tables up to counted reads. -/
def SameExecution (x y : Fallible QueryError Run) : Prop :=
  x = y ∨ ∃ r r', x = pure r ∧ y = pure r' ∧ r.rows = r'.rows ∧
    (∃ z, r.ending.Shows z ∧ r'.ending.Shows z) ∧
    r.state.store.unread = r'.state.store.unread ∧ r.state.affected = r'.state.affected

/-- Plans that are the same come to the same, whenever their workers pull. -/
theorem PhysicalPlan.Same.canComeTo {t u : PhysicalPlan} (h : t.Same u) {limits : RunLimits}
    (ht : 0 < limits.maxWorkers → t.Apart) (hu : 0 < limits.maxWorkers → u.Apart)
    (hroom : limits.channelCapacity < Lowering.channelBound) {q : QueryContext} {e : EngineState}
    {x y : Fallible QueryError Run} (hx : t.CanComeTo limits q e x)
    (hy : u.CanComeTo limits q e y) : SameExecution x y := by
  rcases bound_or_refused limits (h.bind_eq q.bindings) with ⟨hbind, hlive⟩ | ⟨hsame, hrefused⟩
  · have hbind' := (h.bind_eq q.bindings).symm.trans hbind
    rcases hx.cases ht hbind hlive hroom false with ⟨f, hf, rfl⟩ | ⟨v, r, hv, rfl, hlike⟩ <;>
    rcases hy.cases hu hbind' hlive hroom false with ⟨f', hf', rfl⟩ | ⟨v', r', hv', rfl, hlike'⟩
    · rw [← h.inline_eq, hf] at hf'
      cases hf'
      exact .inl rfl
    · rw [← h.inline_eq, hf] at hv'
      cases hv'
    · rw [← h.inline_eq, hv] at hf'
      cases hf'
    · rw [← h.inline_eq, hv] at hv'
      cases hv'
      cases hlike with
      | excused _ he _ => cases he.1
      | alike hrows hends _ hstate =>
        cases hlike' with
        | excused _ he _ => cases he.1
        | alike hrows' hends' _ hstate' =>
          refine .inr ⟨r, r', rfl, rfl, hrows.trans hrows'.symm, ⟨_, hends, hends'⟩, ?_, ?_⟩
          · rw [hstate.store, hstate'.store]
          · rw [hstate.affected, hstate'.affected]
  · exact .inl ((hx.eq_execute hrefused).trans
      (hsame.trans (hy.eq_execute (hsame ▸ hrefused)).symm))

end QueryEngine
