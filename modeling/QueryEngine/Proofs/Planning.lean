import QueryEngine.Proofs.Conforming
import QueryEngine.Query.Planner

/-!
# Planning keeps what a plan promises

A step of planning ends with a result, with an error or with a crash, and leaves a state. Planning a
tree that validates and binds, over measurable tables, does not crash; it fails only where rewriting
has used up its passes, and otherwise makes a plan that conforms to the tree.
-/

set_option autoImplicit false

namespace QueryEngine

open PhysicalPlan (Conforms)

namespace Planning

/-! ## Steps -/

section

variable {α β : Type}

/-- A step of planning after another one. -/
theorem run_bind (m : Planning α) (f : α → Planning β) (st : PlanningState) :
    (m >>= f).run.run.run st = match m.run.run.run st with
      | (.ok (.ok a), st') => (f a).run.run.run st'
      | (.ok (.error e), st') => (.ok (.error e), st')
      | (.error c, st') => (.error c, st') := by
  rw [ExceptT.run_bind, ExceptT.run_bind, StateT.run_bind]
  rcases m.run.run.run st with ⟨_ | _ | a, st'⟩ <;> rfl

theorem run_bind_eq_ok {m : Planning α} {f : α → Planning β} {st st' : PlanningState} {b : β} :
    (m >>= f).run.run.run st = (.ok (.ok b), st') ↔ ∃ a st₁, m.run.run.run st = (.ok (.ok a), st₁) ∧
      (f a).run.run.run st₁ = (.ok (.ok b), st') := by
  rw [run_bind]
  constructor
  · intro h
    rcases hm : m.run.run.run st with ⟨c | e | a, st₁⟩
    · rw [hm] at h
      cases h
    · rw [hm] at h
      cases h
    · rw [hm] at h
      exact ⟨a, st₁, rfl, h⟩
  · rintro ⟨a, st₁, hm, h⟩
    rw [hm]
    exact h

theorem run_ofCheck_eq_ok {r : Except PlanningError α} {st st' : PlanningState} {a : α}
    (h : (ofCheck r).run.run.run st = (.ok (.ok a), st')) : r = .ok a ∧ st' = st := by
  cases r with
  | error e => cases h
  | ok b =>
    cases h
    exact ⟨rfl, rfl⟩

/-- What a step of planning comes to. -/
def result (m : Planning α) (st : PlanningState) : Fallible QueryError α := (m.run.run.run st).1

/-- Whether a step ends without a crash: with a result and a state of which `Q` holds, or with an
error of which `E` holds. -/
def Ends (m : Planning α) (st : PlanningState) (Q : α → PlanningState → Prop)
    (E : QueryError → Prop) : Prop :=
  match m.run.run.run st with
  | (.ok (.ok a), st') => Q a st'
  | (.ok (.error e), _) => E e
  | (.error _, _) => False

variable {m : Planning α} {f : α → Planning β} {st : PlanningState}
  {Q : α → PlanningState → Prop} {R : β → PlanningState → Prop} {E : QueryError → Prop}

theorem Ends.bind (hm : Ends m st Q E) (hf : ∀ a st', Q a st' → Ends (f a) st' R E) :
    Ends (m >>= f) st R E := by
  unfold Ends at hm
  unfold Ends
  rw [run_bind]
  rcases hrun : m.run.run.run st with ⟨c | e | a, st'⟩
  · rw [hrun] at hm
    cases hm
  · rw [hrun] at hm
    exact hm
  · rw [hrun] at hm
    exact hf a st' hm

theorem Ends.ofGet {f : PlanningState → Planning β}
    (h : Ends (f st) st R E) : Ends (get >>= f) st R E :=
  .bind (m := get) (Q := fun a st' => a = st ∧ st' = st) ⟨rfl, rfl⟩ fun a st' hst => by
    rw [hst.1, hst.2]
    exact h

theorem Ends.ofCheck {a : α} {r : Except PlanningError α} (hr : r = .ok a)
    (h : Ends (f a) st R E) : Ends (ofCheck r >>= f) st R E := by
  subst hr
  exact .bind (Q := fun b st' => b = a ∧ st' = st) ⟨rfl, rfl⟩ fun b st' hb => by
    rw [hb.1, hb.2]
    exact h

theorem Ends.ofEstimate {a : α} {r : Except Crash α} (hr : r = .ok a)
    (h : Ends (f a) st R E) : Ends (ofEstimate r >>= f) st R E := by
  subst hr
  exact .bind (Q := fun b st' => b = a ∧ st' = st) ⟨rfl, rfl⟩ fun b st' hb => by
    rw [hb.1, hb.2]
    exact h

theorem Ends.result_cases (h : Ends m st Q E) :
    (∃ a st', result m st = pure a ∧ Q a st') ∨ ∃ e, result m st = throw e ∧ E e := by
  unfold Ends at h
  unfold result
  rcases hrun : m.run.run.run st with ⟨c | e | a, st'⟩
  · rw [hrun] at h
    cases h
  · rw [hrun] at h
    exact .inr ⟨e, rfl, h⟩
  · rw [hrun] at h
    exact .inl ⟨a, st', rfl, h⟩

end

end Planning

/-! ## Splitting and rewriting -/

theorem PhysicalPlan.splitKept_measured (s : Store) : SplitKept (Operator.Measured s) where
  restrict {op} i p h := by
    cases op <;> exact h
  merge := trivial
  limitingSort _ _ := trivial
  mergeLimitingSort _ := trivial

theorem Planner.worthwhileWorkers_ok {s : Store} {q : QueryContext} {t : PhysicalPlan}
    (h : t.Every (Operator.Measured s)) (maxWorkers : Nat) :
    ∃ n, worthwhileWorkers s q maxWorkers t = .ok n := by
  unfold worthwhileWorkers
  split
  · exact ⟨_, rfl⟩
  · obtain ⟨divisible, hdivisible⟩ := PhysicalPlan.parallelisableCost_ok q.bindings h
    obtain ⟨total, htotal⟩ := PhysicalPlan.totalCost_ok q.bindings h
    exact ⟨_, by rw [hdivisible, htotal]; rfl⟩

/-- Over measurable tables rewriting can only use up its passes. -/
theorem RewriteOutcome.proceed_cases (scope : RewriteScope) (rules : List Rule) {w : Rewritten}
    (h : w.plan.Every (Operator.Measured scope.store)) (made left : Nat) :
    (∃ out, proceed scope rules made w left = pure out) ∨
      proceed scope rules made w left = throw (.rewriteLimitExceeded (made + left)) := by
  induction left generalizing made w with
  | zero => exact .inr rfl
  | succ left ih =>
    obtain ⟨next, hnext⟩ := Rewritten.pass_ok rules h
    rw [proceed_succ hnext]
    split
    · exact .inl ⟨_, rfl⟩
    · have hmeasured := Fires.every_of_many Rule.kept_measured (Rewritten.pass_fires hnext) h
      rw [Nat.add_comm left 1, ← Nat.add_assoc]
      exact ih (w := ⟨next.plan, w.fired ++ next.fired⟩) hmeasured (made + 1)

namespace Planning

variable {st : PlanningState} {E : QueryError → Prop}

theorem split_ends {t : PhysicalPlan} (ht : t.validate = .ok ())
    (hmeasured : t.Every (Operator.Measured st.engine.store)) (maxWorkers : Nat) :
    Ends (split maxWorkers t) st (fun made _ => Conforms t made.1 ∧
      made.1.Every (Operator.Measured st.engine.store)) E := by
  unfold split
  refine .ofGet ?_
  obtain ⟨workers, hworkers⟩ := Planner.worthwhileWorkers_ok (q := st.query) hmeasured maxWorkers
  refine .ofEstimate hworkers ?_
  split
  · exact ⟨.refl ht, hmeasured⟩
  · rename_i u next hsplit
    split at hsplit
    · have hconforms := PhysicalPlan.tryPartition_conforms ht hsplit
      have hmeasured' :=
        PhysicalPlan.every_tryPartition (PhysicalPlan.splitKept_measured _) hmeasured hsplit
      refine .bind (Q := fun _ _ => True) trivial fun _ _ _ => ?_
      exact .ofCheck hconforms.valid ⟨hconforms, hmeasured'⟩
    · cases hsplit

/-- The error of a tree that has not come to a fixpoint. -/
def limitError (st : PlanningState) : QueryError :=
  .planning (.rewriteLimitExceeded st.planner.config.maxPasses)

theorem optimise_ends {t : LogicalPlan} (ht : t.validate = .ok ())
    (hmeasured : t.implement.Every (Operator.Measured st.engine.store)) (maxWorkers : Nat) :
    Ends (optimise t maxWorkers) st (fun made _ => Conforms t.implement made.plan ∧
      made.plan.Every (Operator.Measured st.engine.store)) (· = limitError st) := by
  unfold optimise
  refine .ofGet ?_
  rcases RewriteOutcome.proceed_cases (Planner.scope st.planner.config st.engine.store st.query)
    st.planner.rules (w := ⟨t.implement, []⟩) hmeasured 0 st.planner.config.maxPasses with
    ⟨out, hout⟩ | hlimit
  · have hfires := RewriteOutcome.proceed_fires hout
    have hconforms : Conforms t.implement out.plan := FiresMany.conforms hfires ht
    have hkept := Fires.every_of_many Rule.kept_measured hfires hmeasured
    change RewriteOutcome.rewrite (Planner.scope st.planner.config st.engine.store st.query)
      st.planner.rules t.implement = _ at hout
    rw [hout]
    refine .bind (m := ofPlanning (pure out)) (Q := fun a st' => a = out ∧ st' = st) ⟨rfl, rfl⟩ ?_
    rintro _ _ ⟨hmade, _⟩
    rw [hmade]
    refine .bind (Q := fun _ st' => st'.engine.store = st.engine.store) rfl fun _ st' hst' => ?_
    refine .ofCheck hconforms.valid ?_
    rw [← hst'] at hkept ⊢
    refine .bind (split_ends hconforms.valid hkept maxWorkers) ?_
    rintro ⟨u, partitions⟩ _ ⟨hsplit, hmeasured⟩
    exact ⟨hconforms.trans hsplit, hmeasured⟩
  · change RewriteOutcome.rewrite (Planner.scope st.planner.config st.engine.store st.query)
      st.planner.rules t.implement = _ at hlimit
    rw [Nat.zero_add] at hlimit
    rw [hlimit]
    exact rfl

theorem plan_ends {t : LogicalPlan} (ht : t.validate = .ok ())
    (hbind : t.bind st.query.bindings = .ok ())
    (hmeasured : t.implement.Every (Operator.Measured st.engine.store)) {maxWorkers : Nat}
    (hmiss : st.planner.cache.get? (Planner.cacheKey t st.query maxWorkers) = none) :
    Ends (plan t maxWorkers) st (fun p _ => Conforms t.implement p.plan) (· = limitError st) := by
  unfold plan
  refine .ofGet (.ofCheck ht ?_)
  rw [hbind]
  refine .bind (Q := fun entry _ => Conforms t.implement entry.1.plan ∧
    entry.1.plan.Every (Operator.Measured st.engine.store)) ?_ ?_
  · unfold obtain
    refine .ofGet ?_
    dsimp only
    rw [hmiss]
    exact .bind (optimise_ends ht hmeasured maxWorkers) fun made st' hmade => hmade
  · rintro ⟨entry, hit⟩ st' ⟨hconforms, hkept⟩
    obtain ⟨root, hroot⟩ := PhysicalPlan.explain_ok st.query.bindings hkept
    exact .ofEstimate hroot hconforms

end Planning

/-- Firings and splits keep plans valid, with the columns, the group and the groups of the inputs of
every sub-select that they had. So does planning, which can fail only where passes run out. -/
theorem Planning.plan_conforms :
    (∀ (scope : RewriteScope) (t u : PhysicalPlan), t.validate = .ok () →
      Fires scope Rule.all t u → Conforms t u) ∧
    (∀ (t u : PhysicalPlan) (p : Nat) (next next' : GroupId), t.validate = .ok () →
      t.tryPartition p next = some (u, next') → Conforms t u) ∧
    ∀ (t : LogicalPlan) (maxWorkers : Nat) (st : PlanningState), t.validate = .ok () →
      t.bind st.query.bindings = .ok () →
      t.implement.Every (Operator.Measured st.engine.store) →
      st.planner.cache.get? (Planner.cacheKey t st.query maxWorkers) = none →
      (∃ p, result (plan t maxWorkers) st = pure p ∧ p.plan.columns = t.columns ∧
        Conforms t.implement p.plan) ∨
      result (plan t maxWorkers) st =
        throw (.planning (.rewriteLimitExceeded st.planner.config.maxPasses)) := by
  refine ⟨fun scope t u ht h => Fires.conforms h ht,
    fun t u p next next' ht h => PhysicalPlan.tryPartition_conforms ht h, ?_⟩
  intro t maxWorkers st ht hbind hmeasured hmiss
  rcases (plan_ends ht hbind hmeasured hmiss).result_cases with ⟨p, _, hp, hconforms⟩ | ⟨e, he, rfl⟩
  · exact .inl ⟨p, hp, hconforms.columns, hconforms⟩
  · exact .inr he

namespace TwoNumbers

def listed : Predicate :=
  .atom (.oneOf (.column column) [.subquery 1 ⟨"count", .long, false⟩]) false

/-- The numbers that are as large as there are numbers. -/
def countedNumbers : LogicalPlan :=
  .node 0 (.subselect listed) [.node 0 (.scan handle [column]) [],
    .node 1 (.projection .count) [.node 1 (.scan handle [column]) []]]

def part (group : GroupId) (partition partitions : Nat) : PhysicalPlan :=
  .node group (.scan handle [column] partition partitions) []

def planning : PlanningState := ⟨engine, query, ⟨.standard, Rule.all, ⟨1, []⟩⟩⟩

end TwoNumbers

open TwoNumbers in
/-- The count in a sub-query is asked of the storage, and the scan beside it is split. -/
theorem Planning.plan_conforms_counted :
    (∃ u, Fires scope Rule.all countedNumbers.implement u ∧
      Conforms countedNumbers.implement u) ∧
    (∃ u next, countedNumbers.implement.tryPartition 2 2 = some (u, next) ∧
      Conforms countedNumbers.implement u) ∧
    ((∃ p, result (plan countedNumbers 2) planning = pure p ∧
        p.plan.columns = countedNumbers.columns ∧ Conforms countedNumbers.implement p.plan) ∨
      result (plan countedNumbers 2) planning =
        throw (.planning (.rewriteLimitExceeded planning.planner.config.maxPasses))) := by
  obtain ⟨hfires, hsplits, hplans⟩ := plan_conforms
  have hvalid : countedNumbers.validate = .ok () := by decide
  have hfire : Fires scope Rule.all countedNumbers.implement (.node 0 (.subselect listed)
      [part 0 0 1, .node 1 (.rowCount handle ⟨"count", .long, false⟩) []]) :=
    .inside 0 (.subselect listed) [part 0 0 1] [] (.here ⟨.countPushdown, by decide, rfl⟩)
  have hsplit : countedNumbers.implement.tryPartition 2 2 = some (.node 0 (.subselect listed)
      [.node 0 .merge [part 0 0 2, part 2 1 2],
        .node 1 (.projection .count) [part 1 0 1]], 3) := by rfl
  have hscan (group : GroupId) :
      (part group 0 1).Every (Operator.Measured planning.engine.store) := by
    have htable : (handle.table planning.engine.store).Measurable := by decide
    exact PhysicalPlan.every_node.2 ⟨htable, List.forall_mem_nil _⟩
  have hcount : PhysicalPlan.Every (Operator.Measured planning.engine.store)
      (.node 1 (.projection .count) [part 1 0 1]) :=
    PhysicalPlan.every_node.2 ⟨trivial, List.forall_mem_singleton.2 (hscan 1)⟩
  have hmeasured : countedNumbers.implement.Every (Operator.Measured planning.engine.store) :=
    PhysicalPlan.every_node.2 ⟨trivial,
      List.forall_mem_cons.2 ⟨hscan 0, List.forall_mem_singleton.2 hcount⟩⟩
  exact ⟨⟨_, hfire, hfires scope _ _ hvalid hfire⟩,
    ⟨_, _, hsplit, hsplits _ _ 2 2 3 hvalid hsplit⟩,
    hplans countedNumbers 2 planning hvalid (by decide) hmeasured rfl⟩

end QueryEngine
