import QueryEngine.Plan.Explain
import QueryEngine.Proofs.Lowering
import QueryEngine.Proofs.Rows

/-!
# Estimates

An estimate crashes only where a number is moved between bounds that are not numbers in order. The
bounds of a column are so unless all its numbers are NaNs; over tables without such columns every
estimate comes to a result.
-/

set_option autoImplicit false

namespace QueryEngine

/-! ## Bounds -/

namespace Binary

variable {f : BinaryFormat} {x y low high : Binary f}

theorem lt_iff : x.lt y = true ↔
    x.isNaN = false ∧ y.isNaN = false ∧ x.position < y.position := by
  simp only [lt, compare?]
  cases x.isNaN <;> cases y.isNaN <;> simp [Int.compare_eq_lt]

theorem le_iff : x.le y = true ↔
    x.isNaN = false ∧ y.isNaN = false ∧ x.position ≤ y.position := by
  simp only [le, compare?]
  cases hx : x.isNaN <;> cases hy : y.isNaN <;> simp
  rcases Int.lt_trichotomy x.position y.position with h | h | h
  · simp [Int.compare_eq_lt.2 h, Int.le_of_lt h]
  · simp [Int.compare_eq_eq.2 h, Int.le_of_eq h]
  · simp [Int.compare_eq_gt.2 h, h]

theorem le_narrowed (h : low.le high = true) (x : Binary f) :
    (low.minimum x).le (high.maximum x) = true := by
  obtain ⟨hlow, hhigh, hle⟩ := le_iff.1 h
  unfold minimum maximum
  rw [hlow, hhigh, if_neg Bool.false_ne_true, if_neg Bool.false_ne_true]
  by_cases hx : x.lt low = true
  · obtain ⟨hnan, _, hlt⟩ := lt_iff.1 hx
    rw [if_pos hx]
    split
    · exact le_iff.2 ⟨hnan, hnan, Int.le_refl _⟩
    · exact le_iff.2 ⟨hnan, hhigh, by omega⟩
  · rw [if_neg hx]
    split
    · rename_i hy
      obtain ⟨_, hnan, hlt⟩ := lt_iff.1 hy
      exact le_iff.2 ⟨hlow, hnan, by omega⟩
    · exact h

/-- A NaN gives way to the next number, so that bounds are in order once there was a number. -/
theorem le_folded {xs : List (Binary f)}
    (h : low.le high = true ∨ low.isNaN = true ∧ high.isNaN = true ∧ ∃ x ∈ xs, x.isNaN = false) :
    (xs.foldl minimum low).le (xs.foldl maximum high) = true := by
  induction xs generalizing low high with
  | nil =>
    rcases h with h | ⟨_, _, x, hx, _⟩
    · exact h
    · cases hx
  | cons x xs ih =>
    rw [List.foldl_cons, List.foldl_cons]
    apply ih
    rcases h with h | ⟨hlow, hhigh, y, hy, hnan⟩
    · exact .inl (le_narrowed h x)
    · have hmin : low.minimum x = x := by rw [minimum, hlow, if_pos rfl]
      have hmax : high.maximum x = x := by rw [maximum, hhigh, if_pos rfl]
      rw [hmin, hmax]
      cases hx : x.isNaN with
      | false => exact .inl (le_iff.2 ⟨hx, hx, Int.le_refl _⟩)
      | true =>
        rcases List.mem_cons.1 hy with rfl | hy
        · rw [hx] at hnan
          cases hnan
        · exact .inr ⟨rfl, rfl, y, hy, hnan⟩

end Binary

/-- The numbers among values. -/
def numbersOf (values : List Value) : List Binary64 := values.filterMap Value.number?

theorem numbersOf_present (values : List Value) :
    numbersOf (values.filter fun v => !v.isNull) = numbersOf values := by
  induction values with
  | nil => rfl
  | cons v rest ih =>
    cases hv : v.isNull with
    | true =>
      have hnone : v.number? = none := by
        cases v <;> first | rfl | cases hv
      rw [List.filter_cons_of_neg (by simp [hv]), ih, numbersOf, numbersOf,
        List.filterMap_cons_none hnone]
    | false =>
      rw [List.filter_cons_of_pos (by simp [hv]), numbersOf, numbersOf, List.filterMap_cons,
        List.filterMap_cons]
      unfold numbersOf at ih
      rw [ih]

namespace ColumnStatistics

/-- Whether the bounds, if there are any, are numbers in order. -/
def Ordered (s : ColumnStatistics) : Prop :=
  ∀ low high, s.minimum = some low → s.maximum = some high → low.le high = true

theorem foldl_tighten (choose : Binary64 → Binary64 → Binary64) (x : Binary64)
    (values : List Value) :
    values.foldl (tighten choose) (some x) = some ((numbersOf values).foldl choose x) := by
  induction values generalizing x with
  | nil => rfl
  | cons v rest ih =>
    cases hv : v.number? with
    | none =>
      have hnumbers : numbersOf (v :: rest) = numbersOf rest := List.filterMap_cons_none hv
      rw [List.foldl_cons, tighten, hv, hnumbers]
      exact ih x
    | some y =>
      have hnumbers : numbersOf (v :: rest) = y :: numbersOf rest := List.filterMap_cons_some hv
      rw [List.foldl_cons, tighten, hv, hnumbers]
      exact ih (choose x y)

theorem foldl_tighten_none (choose : Binary64 → Binary64 → Binary64) (values : List Value) :
    values.foldl (tighten choose) none =
      match numbersOf values with
      | [] => none
      | x :: xs => some (xs.foldl choose x) := by
  induction values with
  | nil => rfl
  | cons v rest ih =>
    cases hv : v.number? with
    | none =>
      have hnumbers : numbersOf (v :: rest) = numbersOf rest := List.filterMap_cons_none hv
      rw [List.foldl_cons, tighten, hv, hnumbers]
      exact ih
    | some y =>
      have hnumbers : numbersOf (v :: rest) = y :: numbersOf rest := List.filterMap_cons_some hv
      rw [List.foldl_cons, tighten, hv, hnumbers]
      exact foldl_tighten choose y rest

theorem ordered_ofValues (type : ColumnType) {values : List Value}
    (h : (∀ x ∈ numbersOf values, x.isNaN = true) → numbersOf values = []) :
    (ofValues type values).Ordered := by
  intro low high hlow hhigh
  simp only [ofValues, foldl_tighten_none, numbersOf_present] at hlow hhigh
  cases hnumbers : numbersOf values with
  | nil =>
    rw [hnumbers] at hlow
    cases hlow
  | cons x xs =>
    rw [hnumbers] at h hlow hhigh
    cases hlow
    cases hhigh
    apply Binary.le_folded
    cases hx : x.isNaN with
    | false => exact .inl (Binary.le_iff.2 ⟨hx, hx, Int.le_refl _⟩)
    | true =>
      refine .inr ⟨rfl, rfl, ?_⟩
      by_contra hnone
      have hall : ∀ y ∈ x :: xs, y.isNaN = true := by
        intro y hy
        rcases List.mem_cons.1 hy with rfl | hy
        · exact hx
        · by_contra hnan
          exact hnone ⟨y, hy, eq_false_of_ne_true hnan⟩
      cases h hall

/-! ## Estimates of predicates -/

theorem clampWithin_ok {low high : Binary64} (h : low.le high = true) (x : Binary64) :
    clampWithin low high x = .ok (x.clamp low high) :=
  if_pos h

theorem range_ok {s : ColumnStatistics} (h : s.Ordered) (lower upper : Option Binary64) :
    ∃ x, s.range lower upper = .ok x := by
  unfold range
  split
  · rename_i low high hlow hhigh
    have hclamp := clampWithin_ok (h low high hlow hhigh)
    dsimp only
    split
    · exact ⟨_, rfl⟩
    · cases lower <;> cases upper <;>
        simp [hclamp, bind, Except.bind, pure, Except.pure]
  · exact ⟨_, rfl⟩

theorem fraction_ok {s : ColumnStatistics} (h : s.Ordered) (b : Bindings) (c : Comparison) :
    ∃ x, s.fraction b c = .ok x := by
  have hrange := range_ok h
  unfold fraction
  split
  · exact ⟨_, rfl⟩
  · exact ⟨_, rfl⟩
  all_goals (repeat' split) <;> first | exact hrange _ _ | exact ⟨_, rfl⟩

end ColumnStatistics

/-- Whether the bounds of all known columns are in order. -/
def StatisticsMap.Ordered (known : StatisticsMap) : Prop := ∀ e ∈ known, e.2.Ordered

theorem Comparison.estimate_ok {known : StatisticsMap} (h : known.Ordered) (b : Bindings)
    (c : Comparison) : ∃ x, c.estimate known b = .ok x := by
  unfold Comparison.estimate
  split
  · rename_i s hs
    obtain ⟨column, _, hlookup⟩ := Option.bind_eq_some_iff.1 hs
    obtain ⟨before, after, hknown, _⟩ := List.lookup_eq_some_iff.1 hlookup
    have hs : s.Ordered := h (column, s) (by rw [hknown]; simp)
    obtain ⟨x, hx⟩ := ColumnStatistics.fraction_ok hs b c
    exact ⟨_, by rw [ColumnStatistics.estimate, hx]; rfl⟩
  · exact ⟨_, rfl⟩

theorem Predicate.estimate_ok {known : StatisticsMap} (h : known.Ordered) (b : Bindings)
    (p : Predicate) : ∃ x, p.estimate known b = .ok x := by
  induction p with
  | literal value => exact ⟨_, rfl⟩
  | atom c negated =>
    obtain ⟨x, hx⟩ := Comparison.estimate_ok h b c
    exact ⟨_, by rw [estimate, hx]; rfl⟩
  | both l r ihl ihr =>
    obtain ⟨x, hx⟩ := ihl
    obtain ⟨y, hy⟩ := ihr
    exact ⟨_, by rw [estimate, hx, hy]; rfl⟩
  | either l r ihl ihr =>
    obtain ⟨x, hx⟩ := ihl
    obtain ⟨y, hy⟩ := ihr
    exact ⟨_, by rw [estimate, hx, hy]; rfl⟩

/-! ## Measurable tables -/

namespace Table

/-- Whether no column of a table has numbers that are all NaNs. -/
def Measurable (t : Table) : Prop :=
  ∀ c ∈ t.columns, (∀ x ∈ numbersOf (t.rows.map fun row => t.value row.2 c), x.isNaN = true) →
    numbersOf (t.rows.map fun row => t.value row.2 c) = []

instance (t : Table) : Decidable t.Measurable :=
  inferInstanceAs (Decidable (∀ c ∈ t.columns,
    (∀ x ∈ numbersOf (t.rows.map fun row => t.value row.2 c), x.isNaN = true) →
      numbersOf (t.rows.map fun row => t.value row.2 c) = []))

theorem Measurable.ordered {t : Table} (h : t.Measurable) {c : Column} {s : ColumnStatistics}
    (hs : t.statistics? c = some s) : s.Ordered := by
  obtain ⟨place, hplace, rfl⟩ := Option.map_eq_some_iff.1 hs
  have hvalues : (t.rows.map fun row => row.2.getD place .null) =
      t.rows.map fun row => t.value row.2 c := by
    simp only [value, hplace, Option.map_some, Option.getD_some]
  have hmem : c ∈ t.columns := by
    obtain ⟨hlt, hc, _⟩ := List.findIdx?_eq_some_iff_getElem.1 hplace
    rw [← of_decide_eq_true hc]
    exact List.getElem_mem hlt
  rw [hvalues]
  exact ColumnStatistics.ordered_ofValues c.type (h c hmem)

end Table

theorem TableHandle.statisticsOf_ordered {h : TableHandle} {s : Store} (ht : (h.table s).Measurable)
    (cs : List Column) : (h.statisticsOf s cs).Ordered := by
  intro e he
  obtain ⟨c, _, hc⟩ := List.mem_filterMap.1 he
  obtain ⟨stats, hstats, rfl⟩ := Option.map_eq_some_iff.1 hc
  unfold TableHandle.statistics? at hstats
  split at hstats
  · cases hstats
  · exact ht.ordered hstats

/-- Whether all operators of a plan have a property. -/
def PhysicalPlan.Every (P : Operator → Prop) (t : PhysicalPlan) : Prop := ∀ u ∈ t.subtrees, P u.op

theorem PhysicalPlan.every_node {P : Operator → Prop} {group : GroupId} {op : Operator}
    {inputs : List PhysicalPlan} :
    Every P (.node group op inputs) ↔ P op ∧ ∀ t ∈ inputs, t.Every P :=
  forall_subtrees_node

namespace Operator

/-- Whether the table whose statistics an operator reads is measurable. -/
def Measured (s : Store) : Operator → Prop
  | scan t _ _ _ => (t.table s).Measurable
  | sample t _ _ _ => (t.table s).Measurable
  | indexScan _ t _ => (t.table s).Measurable
  | fetch t _ => (t.table s).Measurable
  | _ => True

variable {s : Store} {op : Operator} {inputs : List (Except Crash UInt64)}

theorem statistics_ordered (h : op.Measured s) {input : StatisticsMap} (hinput : input.Ordered) :
    (op.statistics s input).Ordered := by
  have hnone : StatisticsMap.Ordered [] := fun _ he => nomatch he
  cases op with
  | scan t cs i n => exact t.statisticsOf_ordered h cs
  | sample t cs p seed => exact t.statisticsOf_ordered h cs
  | indexScan x t p => exact t.statisticsOf_ordered h [x.column]
  | fetch t cs =>
    intro e he
    rcases List.mem_append.1 he with he | he
    · exact t.statisticsOf_ordered h cs e he
    · exact hinput e he
  | projection p =>
    unfold statistics
    dsimp only
    split
    · exact hnone
    · exact hinput
  | rowCount t out => exact hnone
  | insert t values => exact hnone
  | update t values => exact hnone
  | delete t => exact hnone
  | _ => exact hinput

theorem totalRows_ok (h : ∀ r ∈ inputs, ∃ n, r = .ok n) : ∃ n, totalRows inputs = .ok n := by
  obtain ⟨found, hfound⟩ := Except.exists_mapM_id h
  exact ⟨_, by rw [totalRows, hfound]; rfl⟩

theorem headD_ok (h : ∀ r ∈ inputs, ∃ n, r = .ok n) : ∃ n, inputs.headD (.ok 0) = .ok n := by
  cases inputs with
  | nil => exact ⟨0, rfl⟩
  | cons r rest => exact h r List.mem_cons_self

theorem rows_ok {selectivity : Predicate → Except Crash Selectivity}
    (hselectivity : ∀ p, ∃ x, selectivity p = .ok x) (h : ∀ r ∈ inputs, ∃ n, r = .ok n) :
    ∃ n, op.rows s selectivity inputs = .ok n := by
  obtain ⟨first, hfirst⟩ := headD_ok h
  obtain ⟨all, hall⟩ := totalRows_ok h
  obtain ⟨found, hfound⟩ := Except.exists_mapM_id h
  unfold rows
  cases op with
  | filter p =>
    obtain ⟨x, hx⟩ := hselectivity p
    dsimp only
    split
    · exact ⟨_, rfl⟩
    · exact ⟨_, by rw [hx, hfirst]; rfl⟩
  | subselect p =>
    obtain ⟨x, hx⟩ := hselectivity p
    dsimp only
    split
    · exact ⟨_, rfl⟩
    · exact ⟨_, by rw [hx, hfirst]; rfl⟩
  | projection p =>
    dsimp only
    split
    · exact ⟨_, rfl⟩
    · exact ⟨_, hfirst⟩
  | intersect => exact ⟨_, by dsimp only; rw [hfound]; rfl⟩
  | _ =>
    simp only [hfirst, hall, Except.map]
    exact ⟨_, rfl⟩

theorem cost_ok {output : Except Crash UInt64} (houtput : ∃ n, output = .ok n)
    (h : ∀ r ∈ inputs, ∃ n, r = .ok n) (size : Binary32) :
    ∃ c, op.cost s output inputs size = .ok c := by
  obtain ⟨first, hfirst⟩ := headD_ok h
  obtain ⟨all, hall⟩ := totalRows_ok h
  obtain ⟨buffered, hbuffered⟩ := totalRows_ok fun r hr => h r (List.mem_of_mem_tail hr)
  obtain ⟨n, rfl⟩ := houtput
  unfold cost
  cases op with
  | intersect => exact ⟨_, by dsimp only; rw [hall, hbuffered]; rfl⟩
  | _ =>
    simp only [hfirst, hall, Except.map]
    exact ⟨_, rfl⟩

end Operator

/-! ## Estimates of plans -/

namespace PhysicalPlan

variable (s : Store) (b : Bindings)

theorem statistics_node (group : GroupId) (op : Operator) (inputs : List PhysicalPlan) :
    statistics s (.node group op inputs) =
      op.statistics s ((inputs.map (statistics s)).headD []) := by
  simp only [statistics, PlanTree.fold_node]
  rfl

theorem rows_node (group : GroupId) (op : Operator) (inputs : List PhysicalPlan) :
    rows s b (.node group op inputs) =
      op.rows s (selectivity s b inputs) (inputs.map (rows s b)) := by
  simp only [rows, PlanTree.fold_node]
  rfl

theorem sumCosts_node (own : PhysicalPlan → Except Crash Cost) (group : GroupId) (op : Operator)
    (inputs : List PhysicalPlan) :
    sumCosts (.node group op inputs) own = do
      let first ← own (.node group op inputs)
      return first + Cost.sum (← (inputs.map (sumCosts · own)).mapM id) := by
  simp only [sumCosts, PlanTree.fold_node]

theorem explain_node (group : GroupId) (op : Operator) (inputs : List PhysicalPlan) :
    explain s b (.node group op inputs) = do
      return .node group ⟨op.name, ← rows s b (.node group op inputs),
        ← cost s b (.node group op inputs), op.properties⟩ (← (inputs.map (explain s b)).mapM id) := by
  simp only [explain, PlanTree.fold_node]
  rfl

variable {s} {t : PhysicalPlan}

theorem statistics_ordered (h : t.Every (Operator.Measured s)) : (t.statistics s).Ordered := by
  induction t using PlanTree.induct with
  | node group op inputs ih =>
    obtain ⟨hop, hinputs⟩ := every_node.1 h
    rw [statistics_node]
    apply Operator.statistics_ordered hop
    cases inputs with
    | nil => exact fun _ he => nomatch he
    | cons t rest => exact ih t List.mem_cons_self (hinputs t List.mem_cons_self)

theorem rows_ok (h : t.Every (Operator.Measured s)) : ∃ n, t.rows s b = .ok n := by
  induction t using PlanTree.induct with
  | node group op inputs ih =>
    obtain ⟨_, hinputs⟩ := every_node.1 h
    rw [rows_node]
    apply Operator.rows_ok
    · intro p
      apply Predicate.estimate_ok
      cases inputs with
      | nil => exact fun _ he => nomatch he
      | cons t rest => exact statistics_ordered (hinputs t List.mem_cons_self)
    · exact List.forall_mem_map.2 fun t ht => ih t ht (hinputs t ht)

theorem cost_ok (h : t.Every (Operator.Measured s)) : ∃ c, t.cost s b = .ok c := by
  obtain ⟨group, op, inputs⟩ := t
  exact Operator.cost_ok (rows_ok b h)
    (List.forall_mem_map.2 fun t ht => rows_ok b ((every_node.1 h).2 t ht)) _

theorem sumCosts_ok {own : PhysicalPlan → Except Crash Cost} {P : Operator → Prop}
    (hown : ∀ u : PhysicalPlan, u.Every P → ∃ c, own u = .ok c) (h : t.Every P) :
    ∃ c, t.sumCosts own = .ok c := by
  induction t using PlanTree.induct with
  | node group op inputs ih =>
    obtain ⟨_, hinputs⟩ := every_node.1 h
    obtain ⟨first, hfirst⟩ := hown _ h
    obtain ⟨below, hbelow⟩ := Except.exists_mapM_id
      (List.forall_mem_map.2 fun t ht => ih t ht (hinputs t ht))
    exact ⟨_, by rw [sumCosts_node, hfirst, hbelow]; rfl⟩

theorem totalCost_ok (h : t.Every (Operator.Measured s)) : ∃ c, t.totalCost s b = .ok c :=
  sumCosts_ok (fun _ hu => cost_ok b hu) h

theorem parallelisableCost_ok (h : t.Every (Operator.Measured s)) :
    ∃ c, t.parallelisableCost s b = .ok c := by
  refine sumCosts_ok (fun u hu => ?_) h
  split
  · exact ⟨_, rfl⟩
  · exact cost_ok b hu

theorem explain_ok (h : t.Every (Operator.Measured s)) : ∃ e, t.explain s b = .ok e := by
  induction t using PlanTree.induct with
  | node group op inputs ih =>
    obtain ⟨_, hinputs⟩ := every_node.1 h
    obtain ⟨n, hn⟩ := rows_ok b h
    obtain ⟨c, hc⟩ := cost_ok b h
    obtain ⟨below, hbelow⟩ := Except.exists_mapM_id
      (List.forall_mem_map.2 fun t ht => ih t ht (hinputs t ht))
    exact ⟨_, by rw [explain_node, hn, hc, hbelow]; rfl⟩

end PhysicalPlan

end QueryEngine
