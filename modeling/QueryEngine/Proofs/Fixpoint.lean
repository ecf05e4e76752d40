import QueryEngine.Proofs.Firing

/-!
# Fixpoints of rewriting

What rules put in the place of a node is nothing that a rule fires at. Going up, one pass therefore
leaves nothing to fire. Going down, a node is visited before its inputs change; but as the inputs of
a filter, a limit or a count become nothing new to these, only sorts can meet other estimates than
before. A second pass spills them, which changes no estimate, and leaves nothing to fire.
-/

set_option autoImplicit false

namespace QueryEngine

namespace Rule

/-- The operators that rules put in the place of others. -/
def isProduct : Operator → Bool
  | .rowCount .. => true
  | .indexScan .. => true
  | .fetch .. => true
  | .projection (.select _) => true
  | .limitingSort .. => true
  | .externalSort .. => true
  | .function f _ _ => f.isVectorised
  | _ => false

variable {scope : RewriteScope}

theorem mem_all (r : Rule) : r ∈ all := by
  cases r <;> decide

/-- No rule fires at a product. -/
theorem apply_product (r : Rule) {op : Operator} (hop : isProduct op = true) (group : GroupId)
    (inputs : List PhysicalPlan) : r.apply scope (.node group op inputs) = .ok none := by
  cases op with
  | projection p =>
    cases p with
    | select cs => cases r <;> rfl
    | _ => cases hop
  | function f arguments out =>
    have hf : f.isVectorised = true := hop
    cases r with
    | functionVectorisation => simp [apply, Rule.vectorise, hf]
    | _ => rfl
  | rowCount t out => cases r <;> rfl
  | indexScan x t p => cases r <;> rfl
  | fetch t cs => cases r <;> rfl
  | limitingSort order bounds => cases r <;> rfl
  | externalSort order chunk => cases r <;> rfl
  | _ => cases hop

theorem every_product_indexPlan (group : GroupId) (t : TableHandle) (cs : List Column)
    (p : Predicate) (x : IndexHandle) : (indexPlan group t cs p x).Every (isProduct · = true) :=
  every_indexPlan (P := (isProduct · = true)) rfl (fun _ _ => rfl) rfl group

theorem Replacement.product {t u : PhysicalPlan} (h : Replacement scope t u) :
    isProduct u.op = true := by
  cases h with
  | @lookUp group g t cs i p below x hx hp =>
    exact every_product_indexPlan group t cs p x _ (PhysicalPlan.mem_subtrees_self _)
  | vectorise group hf arguments out inputs =>
    obtain ⟨kernel, _, rfl⟩ := Option.map_eq_some_iff.1 hf
    rfl
  | _ => rfl

/-- What sorts is put in the place of what sorts by the same order only. -/
theorem Replacement.sorts {t u : PhysicalPlan} (h : Replacement scope t u) {order : SortOrder}
    (hsorts : Sorts order u.op) : Sorts order t.op := by
  cases h with
  | spill group order chunk input others =>
    cases hsorts
    exact .inside
  | lookUp group g t cs i p below hx hp =>
    unfold indexPlan fetchPlan lookupPlan at hsorts
    split at hsorts <;> split at hsorts <;> cases hsorts
  | _ => cases hsorts

end Rule

namespace PhysicalPlan

/-- Whether no scan of a plan has inputs. -/
def Leafy (t : PhysicalPlan) : Prop :=
  ∀ u ∈ t.subtrees, ∀ h cs i n, u.op = .scan h cs i n → u.inputs = []

/-- Whether none of some rules fires at a node of a plan. -/
def Rests (scope : RewriteScope) (rules : List Rule) (t : PhysicalPlan) : Prop :=
  ∀ u ∈ t.subtrees, ∀ r ∈ rules, r.apply scope u = .ok none

variable {scope : RewriteScope} {rules : List Rule} {group : GroupId} {op : Operator}
  {inputs : List PhysicalPlan} {t : PhysicalPlan}

theorem leafy_node : Leafy (.node group op inputs) ↔
    (∀ h cs i n, op = .scan h cs i n → inputs = []) ∧ ∀ t ∈ inputs, t.Leafy :=
  forall_subtrees_node

theorem rests_node : Rests scope rules (.node group op inputs) ↔
    (∀ r ∈ rules, r.apply scope (.node group op inputs) = .ok none) ∧
      ∀ t ∈ inputs, t.Rests scope rules :=
  forall_subtrees_node

/-- Scans of a valid plan have no inputs. -/
theorem leafy_of_validate (h : t.validate = .ok ()) : t.Leafy := by
  induction t using PlanTree.induct with
  | node group op inputs ih =>
    obtain ⟨hcheck, hinputs⟩ := validate_node.1 h
    refine leafy_node.2 ⟨?_, fun t ht => ih t ht (hinputs t ht)⟩
    rintro h cs i n rfl
    have harity := (Operator.check_eq_ok.1 hcheck).1
    simpa [Arity.admits, Operator.arity, Operator.shape] using harity

theorem rests_of_products (h : t.Every (Rule.isProduct · = true)) : t.Rests scope rules := by
  rintro ⟨group, op, inputs⟩ hu r _
  exact r.apply_product (h _ hu) group inputs

theorem leafy_of_products (h : t.Every (Rule.isProduct · = true)) : t.Leafy := by
  intro u hu table cs i n hop
  have hproduct : Rule.isProduct u.op = true := h u hu
  rw [hop] at hproduct
  cases hproduct

end PhysicalPlan

namespace Rule

open PhysicalPlan (Rests Leafy rests_node leafy_node)

variable {scope : RewriteScope} {rules : List Rule} {t u : PhysicalPlan}

/-- The inputs of a replacement were below the node, or they are products. -/
theorem Replacement.inputs_cases (h : Replacement scope t u) {c : PhysicalPlan}
    (hc : c ∈ u.inputs) : (∃ d ∈ t.inputs, c ∈ d.subtrees) ∨ c.Every (isProduct · = true) := by
  cases h with
  | count group g t cs i below => cases hc
  | @lookUp group g t cs i p below x hx hp =>
    have hall := every_product_indexPlan group t cs p x
    generalize indexPlan group t cs p x = u at hc hall
    obtain ⟨g, op, inputs⟩ := u
    exact .inr ((PhysicalPlan.every_node.1 hall).2 c hc)
  | fuse group g bounds hop inputs =>
    refine .inl ⟨_, List.mem_singleton_self _, ?_⟩
    exact PhysicalPlan.mem_subtrees_of_mem hc (PhysicalPlan.mem_subtrees_self c)
  | spill group order chunk input others =>
    exact .inl ⟨c, hc, PhysicalPlan.mem_subtrees_self c⟩
  | vectorise group hf arguments out inputs =>
    exact .inl ⟨c, hc, PhysicalPlan.mem_subtrees_self c⟩

theorem Replacement.leafy_inputs (h : Replacement scope t u) (ht : ∀ d ∈ t.inputs, Leafy d) :
    ∀ c ∈ u.inputs, Leafy c := by
  intro c hc
  rcases h.inputs_cases hc with ⟨d, hd, hcd⟩ | hproducts
  · intro v hv
    exact ht d hd v (PhysicalPlan.subtrees_subset hcd v hv)
  · exact PhysicalPlan.leafy_of_products hproducts

/-- Where nothing fires below a node, nothing fires within its replacement. -/
theorem Replacement.rests (h : Replacement scope t u) (ht : ∀ d ∈ t.inputs, Rests scope rules d) :
    u.Rests scope rules := by
  have hproduct := h.product
  have hinputs : ∀ c ∈ u.inputs, Rests scope rules c := by
    intro c hc
    rcases h.inputs_cases hc with ⟨d, hd, hcd⟩ | hproducts
    · intro v hv
      exact ht d hd v (PhysicalPlan.subtrees_subset hcd v hv)
    · exact PhysicalPlan.rests_of_products hproducts
  obtain ⟨group, op, inputs⟩ := u
  exact rests_node.2 ⟨fun r _ => r.apply_product hproduct group inputs, hinputs⟩

end Rule

namespace Rewritten

open PhysicalPlan (Rests Leafy Every rests_node leafy_node every_node)
open Rule (Sorts Replacement)

variable {scope : RewriteScope} {rules : List Rule} {t : PhysicalPlan} {w : Rewritten}

/-! ## Passes that change nothing -/

theorem step_of_rests (h : ∀ r ∈ rules, r.apply scope t = .ok none) :
    ∃ first, step scope t rules = .ok first ∧ first.1 = ⟨t, []⟩ := by
  induction rules with
  | nil => exact ⟨_, rfl, rfl⟩
  | cons r rest ih =>
    obtain ⟨hr, hrest⟩ := List.forall_mem_cons.1 h
    unfold step
    split
    · rename_i e he
      rw [hr] at he
      cases he
    · rename_i u hu
      rw [hr] at hu
      cases hu
    · exact ih hrest

theorem step_of_fires {before after : List Rule} {r : Rule} {u : PhysicalPlan}
    (hbefore : ∀ r ∈ before, r.apply scope t = .ok none) (h : r.apply scope t = .ok (some u)) :
    ∃ first, step scope t (before ++ r :: after) = .ok first ∧ first.1 = ⟨u, [r]⟩ := by
  induction before with
  | nil =>
    rw [List.nil_append]
    unfold step
    split
    · rename_i e he
      rw [h] at he
      cases he
    · rename_i v hv
      rw [h] at hv
      cases hv
      exact ⟨_, rfl, rfl⟩
    · rename_i hnone
      rw [h] at hnone
      cases hnone
  | cons r' rest ih =>
    obtain ⟨hr', hrest⟩ := List.forall_mem_cons.1 hbefore
    rw [List.cons_append]
    unfold step
    split
    · rename_i e he
      rw [hr'] at he
      cases he
    · rename_i u hu
      rw [hr'] at hu
      cases hu
    · exact ih hrest

/-- A pass goes on with the inputs where no rule fires. -/
theorem topDown_of_none {group : GroupId} {op : Operator} {inputs : List PhysicalPlan}
    {below : List Rewritten} (h : ∀ r ∈ rules, r.apply scope (.node group op inputs) = .ok none)
    (hbelow : List.Forall₂ (fun c v => topDown scope rules c = .ok v) inputs below) :
    topDown scope rules (.node group op inputs) =
      .ok ⟨.node group op (below.map plan), below.flatMap fired⟩ := by
  obtain ⟨first, hfirst, hsame⟩ := step_of_rests h
  refine topDown_eq_ok.2 ⟨first, hfirst, below, ?_, ?_⟩
  · rw [hsame]
    exact hbelow
  · rw [hsame]
    rfl

/-- A pass goes on with the inputs of what a rule puts in place. -/
theorem topDown_of_fires (before : List Rule) (r : Rule) (after : List Rule) {group : GroupId}
    {op : Operator} {inputs : List PhysicalPlan} {below : List Rewritten}
    (hbefore : ∀ r ∈ before, r.apply scope t = .ok none)
    (h : r.apply scope t = .ok (some (.node group op inputs)))
    (hbelow : List.Forall₂ (fun c v => topDown scope (before ++ r :: after) c = .ok v) inputs below) :
    topDown scope (before ++ r :: after) t =
      .ok ⟨.node group op (below.map plan), r :: below.flatMap fired⟩ := by
  obtain ⟨first, hfirst, hfired⟩ := step_of_fires hbefore h
  refine topDown_eq_ok.2 ⟨first, hfirst, below, ?_, ?_⟩
  · rw [hfired]
    exact hbelow
  · rw [hfired]
    rfl

theorem topDown_of_rests (h : t.Rests scope rules) : topDown scope rules t = .ok ⟨t, []⟩ := by
  induction t using PlanTree.induct with
  | node group op inputs ih =>
    obtain ⟨hroot, hinputs⟩ := rests_node.1 h
    have hbelow : List.Forall₂ (fun c v => topDown scope rules c = .ok v) inputs
        (inputs.map fun c => ⟨c, []⟩) :=
      List.forall₂_map_right_iff.2 (List.forall₂_same.2 fun c hc => ih c hc (hinputs c hc))
    rw [topDown_of_none hroot hbelow]
    simp [Function.comp_def]

/-- A pass from the leaves on ends where no rule fires over what the inputs have become. -/
theorem bottomUp_of_none {group : GroupId} {op : Operator} {inputs : List PhysicalPlan}
    {below : List Rewritten}
    (hbelow : List.Forall₂ (fun c v => bottomUp scope rules c = .ok v) inputs below)
    (h : ∀ r ∈ rules, r.apply scope (.node group op (below.map plan)) = .ok none) :
    bottomUp scope rules (.node group op inputs) =
      .ok ⟨.node group op (below.map plan), below.flatMap fired⟩ := by
  obtain ⟨last, hlast, hsame⟩ := step_of_rests h
  exact bottomUp_node_eq_ok.2 ⟨below, hbelow, last, hlast, by rw [hsame, List.append_nil]⟩

/-- A pass from the leaves on ends with what a rule puts in place over what the inputs have
become. -/
theorem bottomUp_of_fires (before : List Rule) (r : Rule) (after : List Rule) {group : GroupId}
    {op : Operator} {inputs : List PhysicalPlan} {below : List Rewritten} {u : PhysicalPlan}
    (hbelow : List.Forall₂ (fun c v => bottomUp scope (before ++ r :: after) c = .ok v) inputs below)
    (hbefore : ∀ r ∈ before, r.apply scope (.node group op (below.map plan)) = .ok none)
    (h : r.apply scope (.node group op (below.map plan)) = .ok (some u)) :
    bottomUp scope (before ++ r :: after) (.node group op inputs) =
      .ok ⟨u, below.flatMap fired ++ [r]⟩ := by
  obtain ⟨last, hlast, hfired⟩ := step_of_fires hbefore h
  exact bottomUp_node_eq_ok.2 ⟨below, hbelow, last, hlast, by rw [hfired]⟩

theorem bottomUp_of_rests (h : t.Rests scope rules) : bottomUp scope rules t = .ok ⟨t, []⟩ := by
  induction t using PlanTree.induct with
  | node group op inputs ih =>
    obtain ⟨hroot, hinputs⟩ := rests_node.1 h
    have hbelow : List.Forall₂ (fun c v => bottomUp scope rules c = .ok v) inputs
        (inputs.map fun c => ⟨c, []⟩) :=
      List.forall₂_map_right_iff.2 (List.forall₂_same.2 fun c hc => ih c hc (hinputs c hc))
    have hplans : (inputs.map fun c => (⟨c, []⟩ : Rewritten)).map plan = inputs := by
      simp [Function.comp_def]
    rw [bottomUp_of_none hbelow (by rwa [hplans])]
    simp [Function.comp_def]

theorem pass_of_rests (h : t.Rests scope rules) : pass scope rules t = .ok ⟨t, []⟩ := by
  unfold pass
  split
  · exact topDown_of_rests h
  · exact bottomUp_of_rests h

/-- A pass from the root on that fires nothing found nothing to fire. -/
theorem rests_of_topDown (h : topDown scope rules t = .ok w) (hfired : w.fired = []) :
    w.plan = t ∧ t.Rests scope rules := by
  induction t using PlanTree.induct generalizing w with
  | node group op inputs ih =>
    obtain ⟨first, hfirst, below, hbelow, rfl⟩ := topDown_eq_ok.1 h
    obtain ⟨hstep, hrest⟩ := List.append_eq_nil_iff.1 hfired
    rcases step_cases hfirst with ⟨hsame, hnone⟩ | ⟨r, _, u, _, hw⟩
    · rw [hsame] at hbelow ⊢
      rw [List.flatMap_eq_nil_iff] at hrest
      have hall : List.Forall₂ (fun c v => Rests scope rules c ∧ c = plan v) inputs below := by
        refine List.forall₂_iff_zip.2 ⟨hbelow.length_eq, fun {c v} hcv => ?_⟩
        obtain ⟨hc, hv⟩ := List.of_mem_zip hcv
        obtain ⟨hplan, hrests⟩ := ih c hc ((List.forall₂_iff_zip.1 hbelow).2 hcv) (hrest v hv)
        exact ⟨hrests, hplan.symm⟩
      obtain ⟨hrests, hplans⟩ := (List.forall₂_and_left inputs below).1 hall
      have hinputs : inputs = below.map plan := by
        rw [← List.forall₂_eq_eq_eq]
        exact List.forall₂_map_right_iff.2 hplans
      refine ⟨?_, rests_node.2 ⟨hnone, hrests⟩⟩
      change PlanTree.node group op (below.map plan) = _
      rw [← hinputs]
    · rw [hw] at hstep
      cases hstep

/-! ## Going up -/

/-- One pass towards the root leaves nothing to fire. -/
theorem bottomUp_rests (h : bottomUp scope rules t = .ok w) : w.plan.Rests scope rules := by
  induction t using PlanTree.induct generalizing w with
  | node group op inputs ih =>
    obtain ⟨below, hbelow, last, hlast, rfl⟩ := bottomUp_node_eq_ok.1 h
    have hinputs : ∀ d ∈ below.map plan, d.Rests scope rules := by
      rw [List.forall_mem_map]
      intro v hv
      obtain ⟨c, hc, hpass⟩ := exists_mem_of_forall₂ hbelow hv
      exact ih c hc hpass
    rcases step_cases hlast with ⟨hsame, hnone⟩ | ⟨r, _, u, hu, hw⟩
    · rw [hsame]
      exact rests_node.2 ⟨hnone, hinputs⟩
    · rw [hw]
      exact (Rule.replacement_of_apply hu).rests hinputs

/-! ## Going down -/

/-- What the root of an input can become in a pass. -/
structure Grown (c c' : PhysicalPlan) : Prop where
  scan : ∀ {t cs i n}, c'.op = .scan t cs i n → c' = c
  sorts : ∀ {order}, Sorts order c'.op → Sorts order c.op

theorem topDown_grown (hleafy : t.Leafy) (h : topDown scope rules t = .ok w) :
    Grown t w.plan := by
  obtain ⟨first, hfirst, below, hbelow, rfl⟩ := topDown_eq_ok.1 h
  rcases step_cases hfirst with ⟨hsame, _⟩ | ⟨r, _, u, hu, hw⟩
  · rw [hsame] at hbelow ⊢
    obtain ⟨group, op, inputs⟩ := t
    refine ⟨?_, fun hsorts => hsorts⟩
    intro h cs i n hop
    have hnone : inputs = [] := (leafy_node.1 hleafy).1 h cs i n hop
    subst hnone
    cases hbelow
    rfl
  · rw [hw]
    have hreplacement := Rule.replacement_of_apply hu
    refine ⟨?_, fun hsorts => hreplacement.sorts hsorts⟩
    intro h cs i n hop
    have hproduct := hreplacement.product
    rw [show u.op = _ from hop] at hproduct
    cases hproduct

/-- The rules that do not depend on estimates that change. -/
def steadyRules : List Rule :=
  [.countPushdown, .booleanIndexScan, .limitingSortMerge, .functionVectorisation]

/-- At a node where no rule fires only a sort can spill once its inputs have been visited. -/
theorem apply_steady {group : GroupId} {op : Operator} {inputs inputs' : List PhysicalPlan}
    (hnone : ∀ r ∈ Rule.all, r.apply scope (.node group op inputs) = .ok none)
    (hgrown : List.Forall₂ Grown inputs inputs')
    (hmeasured : Every (Operator.Measured scope.store) (.node group op inputs')) :
    ∀ r ∈ steadyRules, r.apply scope (.node group op inputs') = .ok none := by
  intro r hr
  have hsteady := hnone r r.mem_all
  obtain ⟨found, hfound⟩ := r.apply_ok hmeasured
  cases found with
  | none => exact hfound
  | some u =>
    -- The input that the rule looks at was there before.
    exfalso
    cases Rule.replacement_of_apply hfound with
    | count group g t cs i below =>
      obtain ⟨c, hc, rfl⟩ := eq_singleton_of_forall₂ hgrown
      rw [← hc.scan rfl, hfound] at hsteady
      cases hsteady
    | lookUp group g t cs i p below hx hp =>
      obtain ⟨c, hc, rfl⟩ := eq_singleton_of_forall₂ hgrown
      rw [← hc.scan rfl, hfound] at hsteady
      cases hsteady
    | fuse group g bounds hop below =>
      obtain ⟨⟨g', op', below'⟩, hc, rfl⟩ := eq_singleton_of_forall₂ hgrown
      have hfuse := hnone .limitingSortMerge (Rule.mem_all _)
      cases (hc.sorts hop : Sorts _ op') with
      | inside => cases hfuse
      | outside chunk => cases hfuse
    | spill group order chunk input others =>
      cases r with
      | externalSort => exact absurd hr (by decide)
      | _ => cases hfound
    | vectorise group hf arguments out below =>
      cases r with
      | functionVectorisation =>
        rw [Rule.apply, Except.ok.injEq] at hsteady hfound
        unfold Rule.vectorise at hsteady hfound
        dsimp only at hsteady hfound
        split at hsteady
        · rename_i hcondition
          rw [if_pos hcondition] at hfound
          cases hfound
        · rw [hf] at hsteady
          cases hsteady
      | _ => cases hfound

theorem topDown_steady (hleafy : t.Leafy) (hmeasured : t.Every (Operator.Measured scope.store))
    (h : topDown scope Rule.all t = .ok w) : w.plan.Rests scope steadyRules ∧ w.plan.Leafy := by
  induction hn : t.weight using Nat.strongRecOn generalizing t w with
  | ind n ih =>
    have hnode : w.plan.Every (Operator.Measured scope.store) :=
      Fires.every_of_many Rule.kept_measured (topDown_fires h) hmeasured
    obtain ⟨⟨⟨⟨group, op, inputs⟩, fired⟩, hlighter⟩, hfirst, below, hbelow, rfl⟩ :=
      topDown_eq_ok.1 h
    have hfirstMeasured := (every_node.1
      (Fires.every_of_many Rule.kept_measured (step_fires hfirst) hmeasured)).2
    have hvisited (hinputs : ∀ c ∈ inputs, Leafy c) : ∀ v ∈ below.map plan,
        Rests scope steadyRules v ∧ Leafy v := by
      rw [List.forall_mem_map]
      intro v hv
      obtain ⟨c, hc, hpass⟩ := exists_mem_of_forall₂ hbelow hv
      exact ih (PhysicalPlan.weight c) (hn ▸ hlighter c hc) (hinputs c hc) (hfirstMeasured c hc)
        hpass rfl
    rcases step_cases hfirst with ⟨hsame, hnone⟩ | ⟨r, _, u, hu, hw⟩
    · cases hsame
      obtain ⟨hroot, hinputs⟩ := leafy_node.1 hleafy
      have hgrown : List.Forall₂ Grown inputs (below.map plan) :=
        List.forall₂_map_right_iff.2 ((forall₂_mem hbelow).imp fun c v hv =>
          topDown_grown (hinputs c hv.1) hv.2)
      refine ⟨rests_node.2 ⟨apply_steady hnone hgrown hnode, fun v hv => (hvisited hinputs v hv).1⟩,
        leafy_node.2 ⟨fun h cs i n hop => ?_, fun v hv => (hvisited hinputs v hv).2⟩⟩
      obtain rfl := hroot h cs i n hop
      exact List.forall₂_nil_left_iff.1 hgrown
    · cases hw
      have hreplacement := Rule.replacement_of_apply hu
      have hproduct : Rule.isProduct op = true := hreplacement.product
      have hinputs : ∀ c ∈ inputs, Leafy c := by
        obtain ⟨g, op', inputs'⟩ := t
        exact hreplacement.leafy_inputs (leafy_node.1 hleafy).2
      refine ⟨rests_node.2 ⟨fun r _ => r.apply_product hproduct group _,
        fun v hv => (hvisited hinputs v hv).1⟩,
        leafy_node.2 ⟨fun h cs i n hop => ?_, fun v hv => (hvisited hinputs v hv).2⟩⟩
      have hscan : op = .scan h cs i n := hop
      rw [hscan] at hproduct
      cases hproduct

end Rewritten

/-! ## Spilling changes no estimate -/

namespace PhysicalPlan

/-- Plans with the same columns and the same estimates. -/
structure EstimatedAlike (s : Store) (b : Bindings) (t t' : PhysicalPlan) : Prop where
  columns : t'.columns = t.columns
  statistics : t'.statistics s = t.statistics s
  rows : t'.rows s b = t.rows s b

variable {s : Store} {b : Bindings} {group : GroupId} {op : Operator}
  {inputs inputs' : List PhysicalPlan}

theorem EstimatedAlike.map_eq {β : Type} {f : PhysicalPlan → β}
    (hf : ∀ t t', EstimatedAlike s b t t' → f t' = f t)
    (h : List.Forall₂ (EstimatedAlike s b) inputs inputs') : inputs'.map f = inputs.map f := by
  induction h with
  | nil => rfl
  | cons ht _ ih => rw [List.map_cons, List.map_cons, hf _ _ ht, ih]

theorem EstimatedAlike.node (group : GroupId) (op : Operator)
    (h : List.Forall₂ (EstimatedAlike s b) inputs inputs') :
    EstimatedAlike s b (.node group op inputs) (.node group op inputs') := by
  have hcolumns := map_eq (fun _ _ ht => ht.columns) h
  have hstatistics := map_eq (fun _ _ ht => ht.statistics) h
  have hrows := map_eq (fun _ _ ht => ht.rows) h
  have hselectivity : selectivity s b inputs' = selectivity s b inputs := by
    funext p
    rw [selectivity, selectivity, ← List.head?_map, ← List.head?_map, hstatistics]
  exact ⟨by rw [columns_node, columns_node, hcolumns],
    by rw [statistics_node, statistics_node, hstatistics],
    by rw [rows_node, rows_node, hselectivity, hrows]⟩

theorem estimatedAlike_spilled (group : GroupId) (order : SortOrder) (chunk : Nat)
    (inputs : List PhysicalPlan) : EstimatedAlike s b (.node group (.sort order) inputs)
      (.node group (.externalSort order chunk) inputs) :=
  ⟨by rw [columns_node, columns_node]; rfl, by rw [statistics_node, statistics_node]; rfl,
    by rw [rows_node, rows_node]; rfl⟩

theorem EstimatedAlike.trans {t t' t'' : PhysicalPlan} (h : EstimatedAlike s b t t')
    (h' : EstimatedAlike s b t' t'') : EstimatedAlike s b t t'' :=
  ⟨h'.columns.trans h.columns, h'.statistics.trans h.statistics, h'.rows.trans h.rows⟩

/-- A sort that fits into memory still does over inputs with the same estimates. -/
theorem spillSort_of_alike {scope : RewriteScope}
    (h : List.Forall₂ (EstimatedAlike scope.store scope.bindings) inputs inputs')
    (hnone : Rule.spillSort scope (.node group op inputs) = .ok none) :
    Rule.spillSort scope (.node group op inputs') = .ok none := by
  have hsize : tupleSize (.node group op inputs') = tupleSize (.node group op inputs) := by
    rw [tupleSize, tupleSize, (EstimatedAlike.node group op h).columns]
  cases op with
  | sort order =>
    cases h with
    | nil => rfl
    | @cons t t' rest rest' ht _ =>
      obtain ⟨n, hn, hfits⟩ := Except.bind_eq_ok.1 hnone
      refine Except.bind_eq_ok.2 ⟨n, ht.rows.trans hn, ?_⟩
      rw [hsize]
      dsimp only at hfits ⊢
      split at hfits
      · rename_i hle
        rw [if_pos hle]
        rfl
      · cases hfits
  | _ => rfl

end PhysicalPlan

namespace Rewritten

open PhysicalPlan (Rests Leafy Every EstimatedAlike rests_node leafy_node every_node)

variable {scope : RewriteScope} {t : PhysicalPlan} {w : Rewritten}

/-- A pass from the root on over a plan in which only sorts can spill leaves nothing to fire. -/
theorem topDown_rests (hleafy : t.Leafy) (hmeasured : t.Every (Operator.Measured scope.store))
    (hsteady : t.Rests scope steadyRules) (h : topDown scope Rule.all t = .ok w) :
    w.plan.Rests scope Rule.all ∧ EstimatedAlike scope.store scope.bindings t w.plan := by
  induction t using PlanTree.induct generalizing w with
  | node group op inputs ih =>
    have hnode : w.plan.Every (Operator.Measured scope.store) :=
      Fires.every_of_many Rule.kept_measured (topDown_fires h) hmeasured
    have hinputsLeafy := (leafy_node.1 hleafy).2
    have hinputsMeasured := (every_node.1 hmeasured).2
    obtain ⟨hroot, hinputsSteady⟩ := rests_node.1 hsteady
    obtain ⟨first, hfirst, below, hbelow, rfl⟩ := topDown_eq_ok.1 h
    have hvisited (hsame : first.1.plan.inputs = inputs) :
        (∀ v ∈ below.map plan, Rests scope Rule.all v) ∧
          List.Forall₂ (EstimatedAlike scope.store scope.bindings) inputs (below.map plan) ∧
          List.Forall₂ Grown inputs (below.map plan) := by
      rw [hsame] at hbelow
      have hall : List.Forall₂ (fun c v => Rests scope Rule.all (plan v) ∧
          EstimatedAlike scope.store scope.bindings c (plan v) ∧ Grown c (plan v)) inputs below :=
        (forall₂_mem hbelow).imp fun c v hv =>
          have hrests := ih c hv.1 (hinputsLeafy c hv.1) (hinputsMeasured c hv.1)
            (hinputsSteady c hv.1) hv.2
          ⟨hrests.1, hrests.2, topDown_grown (hinputsLeafy c hv.1) hv.2⟩
      refine ⟨List.forall_mem_map.2 fun v hv => ?_,
        List.forall₂_map_right_iff.2 (hall.imp fun _ _ hv => hv.2.1),
        List.forall₂_map_right_iff.2 (hall.imp fun _ _ hv => hv.2.2)⟩
      obtain ⟨c, _, hrests, _⟩ := exists_mem_of_forall₂ hall hv
      exact hrests
    rcases step_cases hfirst with ⟨hsame, hnone⟩ | ⟨r, hr, u, hu, hw⟩
    · rw [hsame] at hvisited hnode ⊢
      obtain ⟨hrests, halike, hgrown⟩ := hvisited rfl
      refine ⟨rests_node.2 ⟨fun r _ => ?_, hrests⟩, EstimatedAlike.node group op halike⟩
      cases r with
      | externalSort =>
        have hfits : Rule.spillSort scope (.node group op inputs) = .ok none :=
          hnone .externalSort (Rule.mem_all _)
        exact PhysicalPlan.spillSort_of_alike halike hfits
      | _ => exact apply_steady hnone hgrown hnode _ (by decide)
    · rw [hw] at hvisited ⊢
      cases r with
      | externalSort =>
        obtain ⟨g, order, chunk, input, others, he, rfl⟩ := Rule.spillSort_cases hu
        cases he
        obtain ⟨hrests, halike, _⟩ := hvisited rfl
        refine ⟨rests_node.2 ⟨fun r _ => r.apply_product rfl group _, hrests⟩, ?_⟩
        exact (PhysicalPlan.estimatedAlike_spilled group order chunk _).trans
          (EstimatedAlike.node group (.externalSort order chunk) halike)
      | _ =>
        rw [hroot _ (by decide)] at hu
        cases hu

end Rewritten

/-! ## Three passes -/

open PhysicalPlan (Rests Leafy Every) in
/-- The default rules come to a plan at which none of them fires within three passes. -/
theorem RewriteOutcome.rewrite_settles {scope : RewriteScope} {t : PhysicalPlan}
    (hpasses : 3 ≤ scope.config.maxPasses) (hleafy : t.Leafy)
    (hmeasured : t.Every (Operator.Measured scope.store)) :
    ∃ out, rewrite scope Rule.all t = pure out ∧ out.passes ≤ 3 ∧
      out.plan.Rests scope Rule.all ∧
      rewrite scope Rule.all out.plan = pure ⟨out.plan, 1, []⟩ := by
  obtain ⟨left, hleft⟩ := Nat.exists_eq_add_of_le' hpasses
  have hfinal {made more : Nat} {w : Rewritten} (hw : w.plan.Rests scope Rule.all) :
      proceed scope Rule.all made w (more + 1) = pure ⟨w.plan, made + 1, w.fired⟩ := by
    rw [proceed_succ (Rewritten.pass_of_rests hw)]
    rfl
  suffices hout : ∃ out, rewrite scope Rule.all t = pure out ∧ out.passes ≤ 3 ∧
      out.plan.Rests scope Rule.all by
    obtain ⟨out, hout, hthree, hrests⟩ := hout
    refine ⟨out, hout, hthree, hrests, ?_⟩
    rw [rewrite, hleft]
    exact hfinal (w := ⟨out.plan, []⟩) hrests
  obtain ⟨first, hfirst⟩ := Rewritten.pass_ok Rule.all hmeasured
  have hfirstMeasured := Fires.every_of_many Rule.kept_measured (Rewritten.pass_fires hfirst) hmeasured
  rw [rewrite, hleft, proceed_succ hfirst]
  cases horder : scope.config.matchOrder with
  | bottomUp =>
    have hrests : first.plan.Rests scope Rule.all := by
      rw [Rewritten.pass, horder] at hfirst
      exact Rewritten.bottomUp_rests hfirst
    split
    · exact ⟨_, rfl, Nat.le_add_left 1 2, hrests⟩
    · exact ⟨_, hfinal (w := ⟨first.plan, _⟩) hrests, Nat.le_add_left 2 1, hrests⟩
  | topDown =>
    have hdown (u : PhysicalPlan) :
        Rewritten.pass scope Rule.all u = Rewritten.topDown scope Rule.all u := by
      rw [Rewritten.pass, horder]
    rw [hdown] at hfirst
    split
    · rename_i hfired
      obtain ⟨hsame, hrests⟩ := Rewritten.rests_of_topDown hfirst (List.isEmpty_iff.1 hfired)
      exact ⟨_, rfl, Nat.le_add_left 1 2, hsame ▸ hrests⟩
    · obtain ⟨hsteady, hleafy⟩ := Rewritten.topDown_steady hleafy hmeasured hfirst
      obtain ⟨second, hsecond⟩ := Rewritten.pass_ok Rule.all hfirstMeasured
      have hrests : second.plan.Rests scope Rule.all := by
        rw [hdown] at hsecond
        exact (Rewritten.topDown_rests hleafy hfirstMeasured hsteady hsecond).1
      rw [proceed_succ (w := ⟨first.plan, (⟨t, []⟩ : Rewritten).fired ++ first.fired⟩) hsecond]
      split
      · exact ⟨_, rfl, Nat.le_add_left 2 1, hrests⟩
      · exact ⟨_, hfinal (w := ⟨second.plan, _⟩) hrests, Nat.le_refl 3, hrests⟩

/-! ### A sort over a filter -/

namespace SortedFilter

def column : Column := ⟨"t.x", .long, false⟩

/-- A table of one row with an index. -/
def table : Table :=
  ⟨"t", [column], [(0, [.long 1])], 1, [⟨"t.idx_x", column, [(.long 1, [0])], 1⟩], 0⟩

def store : Store := ⟨[table]⟩

def handle : TableHandle := store.handle 0

def index : IndexHandle := ⟨0, 0, "t.idx_x", column⟩

/-- Three passes and memory for one tuple. -/
def scope : RewriteScope :=
  ⟨store, ⟨[some (.long 1), some (.long 2)], []⟩, .standard,
    { PlannerConfig.standard with maxPasses := 3, memoryBudget := 8 }, .none⟩

def listed : Predicate :=
  .atom (.oneOf (.column column) [.literal 0 (some .long), .literal 1 (some .long)]) false

/-- A filter over a scan that is given inputs. -/
def filtered (below : List PhysicalPlan) : PhysicalPlan :=
  .node 0 (.filter listed) [.node 0 (.scan handle [column] 0 1) below]

def order : SortOrder := [(column, .ascending)]

def sorted (input : PhysicalPlan) : PhysicalPlan := .node 0 (.sort order) [input]

/-- A count over a scan of no columns, which is cheaper than asking the storage. -/
def counted : PhysicalPlan := .node 0 (.projection .count) [.node 0 (.scan handle [] 0 1) []]

def stored : PhysicalPlan := .node 0 (.rowCount handle ⟨"count", .long, false⟩) []

/-- The look-up of both numbers, of which there may be two rows. -/
def found : PhysicalPlan := Rule.lookupPlan 0 handle listed index

theorem handle_measurable : (handle.table scope.store).Measurable := by decide

theorem sorted_measured {below : List PhysicalPlan}
    (h : ∀ t ∈ below, t.Every (Operator.Measured scope.store)) :
    (sorted (filtered below)).Every (Operator.Measured scope.store) := by
  have hscan : PhysicalPlan.Every (Operator.Measured scope.store)
      (.node 0 (.scan handle [column] 0 1) below) :=
    PhysicalPlan.every_node.2 ⟨handle_measurable, h⟩
  have hfilter : PhysicalPlan.Every (Operator.Measured scope.store) (filtered below) :=
    PhysicalPlan.every_node.2 ⟨trivial, List.forall_mem_singleton.2 hscan⟩
  exact PhysicalPlan.every_node.2 ⟨trivial, List.forall_mem_singleton.2 hfilter⟩

theorem eq_none_of_isSome {r : Except Crash (Option PhysicalPlan)}
    (h : r.map Option.isSome = .ok false) : r = .ok none := by
  obtain ⟨found, rfl, hsome⟩ := Except.map_eq_ok.1 h
  cases found with
  | none => rfl
  | some u => cases hsome

theorem eq_some_of_isSome {r : Except Crash (Option PhysicalPlan)}
    (h : r.map Option.isSome = .ok true) : ∃ u, r = .ok (some u) := by
  obtain ⟨found, rfl, hsome⟩ := Except.map_eq_ok.1 h
  cases found with
  | none => cases hsome
  | some u => exact ⟨u, rfl⟩

end SortedFilter

open SortedFilter in
theorem RewriteOutcome.rewrite_settles_sorted : ∃ out,
    rewrite scope Rule.all (sorted (filtered [])) = pure out ∧ out.passes ≤ 3 ∧
      out.plan.Rests scope Rule.all ∧
      rewrite scope Rule.all out.plan = pure ⟨out.plan, 1, []⟩ := by
  have hvalid : (sorted (filtered [])).validate = .ok () := by decide
  exact rewrite_settles (by decide) (PhysicalPlan.leafy_of_validate hvalid)
    (sorted_measured (List.forall_mem_nil _))

open SortedFilter Rewritten in
/-- The inputs of a scan count towards what a filter costs, so that one pass makes the look-up pay,
the next puts it in place and a third one spills the sort above it. -/
theorem RewriteOutcome.rewrite_exceeds_three : 3 ≤ scope.config.maxPasses ∧
    (sorted (filtered [counted, counted, counted])).Every (Operator.Measured scope.store) ∧
    rewrite scope Rule.all (sorted (filtered [counted, counted, counted])) =
      throw (.rewriteLimitExceeded 3) := by
  have hmeasured : counted.Every (Operator.Measured scope.store) := by
    have hscan : PhysicalPlan.Every (Operator.Measured scope.store)
        (.node 0 (.scan handle [] 0 1) []) :=
      PhysicalPlan.every_node.2 ⟨handle_measurable, List.forall_mem_nil _⟩
    exact PhysicalPlan.every_node.2 ⟨trivial, List.forall_mem_singleton.2 hscan⟩
  refine ⟨by decide, sorted_measured ?_, ?_⟩
  · intro t ht
    simp only [List.mem_cons, List.not_mem_nil, or_false, or_self] at ht
    exact ht ▸ hmeasured
  -- The rules that depend on estimates.
  have hcounted : Rule.useIndex scope (filtered [counted, counted, counted]) = .ok none :=
    eq_none_of_isSome (by decide +kernel)
  have hstored : Rule.booleanIndexScan.apply scope (filtered [stored, stored, stored]) =
      .ok (some found) := by
    rw [Rule.apply]
    obtain ⟨u, hu⟩ := eq_some_of_isSome
      (r := Rule.useIndex scope (filtered [stored, stored, stored])) (by decide +kernel)
    obtain ⟨x, hx, _, rfl⟩ := Rule.useIndex_cases hu
    have hindex : handle.indexes scope.store = [index] := by decide
    rw [hindex, List.mem_singleton] at hx
    subst hx
    exact hu
  have hfits : Rule.spillSort scope (sorted (filtered [counted, counted, counted])) = .ok none :=
    eq_none_of_isSome (by decide +kernel)
  have hfits' : Rule.spillSort scope (sorted (filtered [stored, stored, stored])) = .ok none :=
    eq_none_of_isSome (by decide +kernel)
  have hspills : Rule.externalSort.apply scope (sorted found) =
      .ok (some (.node 0 (.externalSort order 1) [found])) := by rfl
  -- The first pass.
  have hcount : topDown scope Rule.all counted = .ok ⟨stored, [.countPushdown]⟩ :=
    topDown_of_fires [] .countPushdown _ (List.forall_mem_nil _) rfl .nil
  have hscan : topDown scope Rule.all (.node 0 (.scan handle [column] 0 1)
      [counted, counted, counted]) = .ok ⟨.node 0 (.scan handle [column] 0 1)
        [stored, stored, stored], [.countPushdown, .countPushdown, .countPushdown]⟩ :=
    topDown_of_none (fun r _ => by cases r <;> rfl) (.cons hcount (.cons hcount (.cons hcount .nil)))
  have hfilter : topDown scope Rule.all (filtered [counted, counted, counted]) =
      .ok ⟨filtered [stored, stored, stored], [.countPushdown, .countPushdown, .countPushdown]⟩ :=
    topDown_of_none (fun r _ => by
      cases r with
      | booleanIndexScan => exact hcounted
      | _ => rfl) (.cons hscan .nil)
  have hfirst : topDown scope Rule.all (sorted (filtered [counted, counted, counted])) =
      .ok ⟨sorted (filtered [stored, stored, stored]),
        [.countPushdown, .countPushdown, .countPushdown]⟩ :=
    topDown_of_none (fun r _ => by
      cases r with
      | externalSort => exact hfits
      | _ => rfl) (.cons hfilter .nil)
  -- The second pass.
  have hlookup : topDown scope Rule.all (filtered [stored, stored, stored]) =
      .ok ⟨found, [.booleanIndexScan]⟩ :=
    topDown_of_fires [.countPushdown] .booleanIndexScan
      [.limitingSortMerge, .externalSort, .functionVectorisation] (List.forall_mem_singleton.2 rfl)
      hstored .nil
  have hsecond : topDown scope Rule.all (sorted (filtered [stored, stored, stored])) =
      .ok ⟨sorted found, [.booleanIndexScan]⟩ :=
    topDown_of_none (fun r _ => by
      cases r with
      | externalSort => exact hfits'
      | _ => rfl) (.cons hlookup .nil)
  -- The third pass.
  have hfound : topDown scope Rule.all found = .ok ⟨found, []⟩ :=
    topDown_of_none (fun r _ => by cases r <;> rfl) .nil
  have hthird : topDown scope Rule.all (sorted found) =
      .ok ⟨.node 0 (.externalSort order 1) [found], [.externalSort]⟩ :=
    topDown_of_fires [.countPushdown, .booleanIndexScan, .limitingSortMerge] .externalSort _
      (by simp [Rule.apply, Rule.pushCount, Rule.useIndex, Rule.fuseLimit, sorted, found,
        Rule.lookupPlan]) hspills (.cons hfound .nil)
  have hdown (u : PhysicalPlan) : pass scope Rule.all u = topDown scope Rule.all u := rfl
  rw [← hdown] at hfirst hsecond hthird
  refine (proceed_succ (w := ⟨_, []⟩) hfirst).trans ?_
  change proceed scope Rule.all 1 ⟨sorted (filtered [stored, stored, stored]), _⟩ 2 = _
  refine (proceed_succ (w := ⟨_, _⟩) hsecond).trans ?_
  change proceed scope Rule.all 2 ⟨sorted found, _⟩ 1 = _
  exact proceed_succ (w := ⟨_, _⟩) hthird

end QueryEngine
