import QueryEngine.Proofs.Conforming
import QueryEngine.Proofs.Fixpoint

/-!
# What becomes of a plan

Whatever the order in which the nodes of a plan are visited, the same rules fire at the same nodes,
but for sorts: whether a sort spills depends on the estimate of its input, which an index look-up
below may have changed. `Settled` relates a plan to what may have become of it; the estimates of all
that may have become of one plan are the same.
-/

set_option autoImplicit false

namespace QueryEngine

namespace Rule

variable {scope : RewriteScope} {t u : PhysicalPlan} {group : GroupId} {order : SortOrder}
  {inputs inputs' : List PhysicalPlan}

/-- The rule that looks at nodes of an operator. -/
def at? : Operator → Option Rule
  | .projection .count => some countPushdown
  | .filter _ => some booleanIndexScan
  | .limit _ => some limitingSortMerge
  | .sort _ => some externalSort
  | .function .. => some functionVectorisation
  | _ => none

theorem at?_of_apply {r : Rule} (h : r.apply scope t = .ok (some u)) : at? t.op = some r := by
  cases r with
  | countPushdown =>
    have h := Except.ok.inj h
    unfold pushCount at h
    split at h
    · rfl
    · cases h
  | booleanIndexScan =>
    rw [apply] at h
    unfold useIndex at h
    split at h
    · rfl
    · cases h
  | limitingSortMerge =>
    have h := Except.ok.inj h
    unfold fuseLimit at h
    split at h
    · rfl
    · rfl
    · cases h
  | externalSort =>
    obtain ⟨group, order, chunk, input, others, rfl, _⟩ := spillSort_cases h
    rfl
  | functionVectorisation =>
    have h := Except.ok.inj h
    unfold Rule.vectorise at h
    split at h
    · rfl
    · cases h

theorem pushCount_eq_none {op : Operator}
    (h : ∀ g table cs i n below, inputs ≠ [.node g (.scan table cs i n) below]) :
    pushCount (.node group op inputs) = none := by
  unfold pushCount
  split
  · rename_i heq
    cases heq
    exact (h _ _ _ _ _ _ rfl).elim
  · rfl

theorem useIndex_eq_none {op : Operator}
    (h : ∀ g table cs i n below, inputs ≠ [.node g (.scan table cs i n) below]) :
    useIndex scope (.node group op inputs) = .ok none := by
  unfold useIndex
  split
  · rename_i heq
    cases heq
    exact (h _ _ _ _ _ _ rfl).elim
  · rfl

theorem fuseLimit_eq_none {op : Operator}
    (h : ∀ g order op below, Sorts order op → inputs ≠ [.node g op below]) :
    fuseLimit (.node group op inputs) = none := by
  unfold fuseLimit
  split
  · rename_i heq
    cases heq
    exact (h _ _ _ _ .inside rfl).elim
  · rename_i heq
    cases heq
    exact (h _ _ _ _ (.outside _) rfl).elim
  · rfl

theorem useIndex_products (h : useIndex scope t = .ok (some u)) : u.Every (isProduct · = true) := by
  have happly : booleanIndexScan.apply scope t = .ok (some u) := h
  cases replacement_of_apply happly with
  | lookUp group g table cs i p below hx hp => exact every_product_indexPlan group table cs p _
  | count group g table cs i below => cases h
  | fuse group g bounds hop below => cases h
  | spill group order chunk input others => cases h
  | vectorise group hf arguments out below => cases h

/-! ## Sorts that exceed the budget -/

/-- Whether the estimates say that a sort does not fit into memory. -/
def Exceeds (scope : RewriteScope) (t : PhysicalPlan) : Prop :=
  ∃ u, spillSort scope t = .ok (some u)

/-- How many tuples of a size fit into memory, at least one. -/
def chunk (scope : RewriteScope) (size : Nat) : Nat :=
  max (scope.config.memoryBudget / UInt64.ofNat size).toNat 1

/-- What exceeds the budget is a sort, and in its place stands one that spills. -/
theorem spill_eq_some (h : externalSort.apply scope t = .ok (some u)) :
    Exceeds scope t ∧ ∃ group order inputs, t = .node group (.sort order) inputs ∧
      u = .node group (.externalSort order (chunk scope t.tupleSize)) inputs := by
  have hspills : spillSort scope t = .ok (some u) := h
  refine ⟨⟨u, hspills⟩, ?_⟩
  obtain ⟨group, order, _, input, others, rfl, _⟩ := spillSort_cases hspills
  refine ⟨group, order, input :: others, rfl, ?_⟩
  obtain ⟨rows, _, h⟩ := Except.bind_eq_ok.1 hspills
  dsimp only at h
  split at h
  · cases h
  · cases h
    rfl

/-- A sort exceeds the budget exactly if the estimated size of its input does. -/
theorem exceeds_iff {input : PhysicalPlan} {others : List PhysicalPlan} :
    Exceeds scope (.node group (.sort order) (input :: others)) ↔
      ∃ rows, input.rows scope.store scope.bindings = .ok rows ∧
        scope.config.memoryBudget < saturatingMul rows (UInt64.ofNat
          (PhysicalPlan.tupleSize (.node group (.sort order) (input :: others)))) := by
  constructor
  · rintro ⟨u, h⟩
    obtain ⟨rows, hrows, h⟩ := Except.bind_eq_ok.1 h
    dsimp only at h
    split at h
    · cases h
    · rename_i hlarge
      exact ⟨rows, hrows, UInt64.not_le.1 hlarge⟩
  · rintro ⟨rows, hrows, hlarge⟩
    refine ⟨.node group (.externalSort order (chunk scope
      (PhysicalPlan.tupleSize (.node group (.sort order) (input :: others))))) (input :: others),
      Except.bind_eq_ok.2 ⟨rows, hrows, ?_⟩⟩
    dsimp only
    rw [if_neg (UInt64.not_le.2 hlarge)]
    rfl

theorem exceeds_of_alike
    (h : List.Forall₂ (PhysicalPlan.EstimatedAlike scope.store scope.bindings) inputs inputs')
    (hexceeds : Exceeds scope (.node group (.sort order) inputs)) :
    Exceeds scope (.node group (.sort order) inputs') := by
  cases h with
  | nil =>
    obtain ⟨u, hu⟩ := hexceeds
    cases hu
  | cons hinput hothers =>
    obtain ⟨rows, hrows, hlarge⟩ := exceeds_iff.1 hexceeds
    refine exceeds_iff.2 ⟨rows, hinput.rows.trans hrows, ?_⟩
    have hcolumns := (PhysicalPlan.EstimatedAlike.node group (.sort order)
      (List.Forall₂.cons hinput hothers)).columns
    rwa [PhysicalPlan.tupleSize, hcolumns]

end Rule

/-! ## Settled plans -/

open Rewritten (steadyRules)
open PhysicalPlan (Every EstimatedAlike Leafy every_node leafy_node)
open Rule (Exceeds chunk Sorts isProduct)

/-- How a rewriting goes: what becomes of a plan that is visited, and which sorts spill or stay,
told by the sort over its inputs as they were and over the inputs as they have become. -/
structure Course where
  visits : PhysicalPlan → PhysicalPlan → Prop
  spills : PhysicalPlan → PhysicalPlan → Prop
  stays : PhysicalPlan → PhysicalPlan → Prop

/-- What may become of a plan: the rules that do not depend on estimates below fire where they can,
and sorts spill or stay. -/
inductive Settled (scope : RewriteScope) (course : Course) : PhysicalPlan → PhysicalPlan → Prop
  | fires {r : Rule} {t : PhysicalPlan} {group : GroupId} {op : Operator}
      {inputs inputs' : List PhysicalPlan} (hr : r ∈ steadyRules)
      (h : r.apply scope t = .ok (some (.node group op inputs)))
      (hinputs : List.Forall₂ (Settled scope course) inputs inputs')
      (hvisits : List.Forall₂ course.visits inputs inputs') :
      Settled scope course t (.node group op inputs')
  | spilled {group : GroupId} {order : SortOrder} {inputs inputs' : List PhysicalPlan}
      (hinputs : List.Forall₂ (Settled scope course) inputs inputs')
      (hvisits : List.Forall₂ course.visits inputs inputs')
      (h : course.spills (.node group (.sort order) inputs) (.node group (.sort order) inputs')) :
      Settled scope course (.node group (.sort order) inputs) (.node group (.externalSort order
        (chunk scope (PhysicalPlan.tupleSize (.node group (.sort order) inputs)))) inputs')
  | kept {group : GroupId} {op : Operator} {inputs inputs' : List PhysicalPlan}
      (hnone : ∀ r ∈ steadyRules, r.apply scope (.node group op inputs) = .ok none)
      (hinputs : List.Forall₂ (Settled scope course) inputs inputs')
      (hvisits : List.Forall₂ course.visits inputs inputs')
      (h : ∀ order, op = .sort order →
        course.stays (.node group op inputs) (.node group op inputs')) :
      Settled scope course (.node group op inputs) (.node group op inputs')

namespace Settled

variable {scope : RewriteScope} {course course' : Course} {t u u' : PhysicalPlan}
  {group : GroupId} {op : Operator} {inputs inputs' : List PhysicalPlan}

/-- Induction over what has become of a plan. -/
theorem induct {motive : PhysicalPlan → PhysicalPlan → Prop}
    (fires : ∀ {r t group op inputs inputs'}, r ∈ steadyRules →
      r.apply scope t = .ok (some (.node group op inputs)) →
      List.Forall₂ (Settled scope course) inputs inputs' →
      List.Forall₂ course.visits inputs inputs' →
      List.Forall₂ motive inputs inputs' → motive t (.node group op inputs'))
    (spilled : ∀ {group order inputs inputs'}, List.Forall₂ (Settled scope course) inputs inputs' →
      List.Forall₂ course.visits inputs inputs' →
      course.spills (.node group (.sort order) inputs) (.node group (.sort order) inputs') →
      List.Forall₂ motive inputs inputs' →
      motive (.node group (.sort order) inputs) (.node group (.externalSort order
        (chunk scope (PhysicalPlan.tupleSize (.node group (.sort order) inputs)))) inputs'))
    (kept : ∀ {group op inputs inputs'},
      (∀ r ∈ steadyRules, r.apply scope (.node group op inputs) = .ok none) →
      List.Forall₂ (Settled scope course) inputs inputs' →
      List.Forall₂ course.visits inputs inputs' →
      (∀ order, op = .sort order →
        course.stays (.node group op inputs) (.node group op inputs')) →
      List.Forall₂ motive inputs inputs' → motive (.node group op inputs) (.node group op inputs'))
    (h : Settled scope course t u) : motive t u := by
  induction hn : t.weight using Nat.strongRecOn generalizing t u with
  | ind n ih =>
    have hbelow {inputs inputs' : List PhysicalPlan}
        (hinputs : List.Forall₂ (Settled scope course) inputs inputs')
        (hweight : ∀ c ∈ inputs, c.weight < n) : List.Forall₂ motive inputs inputs' :=
      (forall₂_mem hinputs).imp fun c _ hc => ih c.weight (hweight c hc.1) hc.2 rfl
    cases h with
    | fires hr h hinputs hvisits =>
      have hlighter := Rule.inputs_weight_lt h
      exact fires hr h hinputs hvisits (hbelow hinputs fun c hc => hn ▸ hlighter c hc)
    | spilled hinputs hvisits h =>
      exact spilled hinputs hvisits h
        (hbelow hinputs fun c hc => hn ▸ PhysicalPlan.weight_lt_of_mem hc)
    | kept hnone hinputs hvisits h =>
      exact kept hnone hinputs hvisits h
        (hbelow hinputs fun c hc => hn ▸ PhysicalPlan.weight_lt_of_mem hc)

/-! ### What stays as it is -/

/-- No rule fires at products, at any depth. -/
theorem of_products (ht : t.Every (isProduct · = true))
    (hvisits : ∀ c : PhysicalPlan, c.Every (isProduct · = true) → course.visits c c) :
    Settled scope course t t := by
  induction t using PlanTree.induct with
  | node group op inputs ih =>
    obtain ⟨hop, hinputs⟩ := every_node.1 ht
    refine .kept (fun r _ => r.apply_product hop group inputs)
      (List.forall₂_same.2 fun c hc => ih c hc (hinputs c hc))
      (List.forall₂_same.2 fun c hc => hvisits c (hinputs c hc)) ?_
    rintro order rfl
    cases hop

theorem eq_of_scan {table : TableHandle} {cs : List Column} {i n : Nat}
    (h : Settled scope course (.node group (.scan table cs i n) []) u) :
    u = .node group (.scan table cs i n) [] := by
  cases h with
  | fires _ h _ _ => cases Rule.at?_of_apply h
  | kept _ hinputs _ _ =>
    cases hinputs
    rfl

/-- A scan comes from itself only. -/
theorem eq_of_becomes_scan {table : TableHandle} {cs : List Column} {i n : Nat} (ht : t.Leafy)
    (h : Settled scope course t u) (hu : u.op = .scan table cs i n) : u = t := by
  cases h with
  | @fires r t group op inputs inputs' _ h _ _ =>
    have hproduct : isProduct op = true := (Rule.replacement_of_apply h).product
    rw [show op = _ from hu] at hproduct
    cases hproduct
  | spilled _ _ _ => cases hu
  | kept _ hinputs _ _ =>
    obtain rfl := (leafy_node.1 ht).1 table cs i n hu
    cases hinputs
    rfl

/-- What sorts goes on to sort, in memory or outside of it. -/
theorem sorts {order : SortOrder} (hop : Sorts order op)
    (h : Settled scope course (.node group op inputs) u) :
    ∃ op' inputs', u = .node group op' inputs' ∧ Sorts order op' ∧
      List.Forall₂ (Settled scope course) inputs inputs' ∧
      List.Forall₂ course.visits inputs inputs' := by
  cases h with
  | fires hr h _ _ =>
    have hat := Rule.at?_of_apply h
    cases hop with
    | inside =>
      cases hat
      exact absurd hr (by decide)
    | outside chunk => cases hat
  | @spilled group order' inputs inputs' hinputs hvisits h =>
    cases hop
    exact ⟨_, _, rfl, .outside _, hinputs, hvisits⟩
  | kept _ hinputs hvisits _ => exact ⟨_, _, rfl, hop, hinputs, hvisits⟩

/-- What sorts has come from what sorts. -/
theorem sorts_of_becomes {order : SortOrder} (h : Settled scope course t u)
    (hu : Sorts order u.op) : Sorts order t.op := by
  cases h with
  | fires _ h _ _ => exact (Rule.replacement_of_apply h).sorts hu
  | spilled _ _ _ =>
    cases hu
    exact .inside
  | kept _ _ _ _ => exact hu

/-! ### Estimates and columns -/

/-- All that may become of a plan has the same estimates. -/
theorem estimatedAlike {s : Store} {b : Bindings} (h : Settled scope course t u)
    (h' : Settled scope course' t u') : EstimatedAlike s b u u' := by
  have hmeet {inputs inputs' outputs : List PhysicalPlan}
      (ih : List.Forall₂ (fun c d => ∀ d', Settled scope course' c d' → EstimatedAlike s b d d')
        inputs inputs') (houtputs : List.Forall₂ (Settled scope course') inputs outputs) :
      List.Forall₂ (EstimatedAlike s b) inputs' outputs :=
    forall₂_meet ih houtputs fun _ _ _ d hc hc' => hc d hc'
  refine induct (motive := fun t u => ∀ u', Settled scope course' t u' → EstimatedAlike s b u u')
    ?_ ?_ ?_ h u' h'
  · intro r t group op inputs inputs' hr h _ _ ih u' h'
    cases h' with
    | @fires r' t group' op' inputs'' outputs hr' h' hinputs' _ =>
      have hrule : r = r' :=
        Option.some.inj ((Rule.at?_of_apply h).symm.trans (Rule.at?_of_apply h'))
      rw [hrule, h'] at h
      cases h
      exact .node group op (hmeet ih hinputs')
    | spilled _ _ _ =>
      cases Rule.at?_of_apply h
      exact absurd hr (by decide)
    | kept hnone _ _ _ =>
      rw [hnone r hr] at h
      cases h
  · intro group order inputs inputs' _ _ _ ih u' h'
    cases h' with
    | fires hr h' _ _ =>
      cases Rule.at?_of_apply h'
      exact absurd hr (by decide)
    | spilled hinputs' _ _ =>
      exact .node group _ (hmeet ih hinputs')
    | kept _ hinputs' _ _ =>
      have hspilled := PhysicalPlan.estimatedAlike_spilled (s := s) (b := b) group order
        (chunk scope (PhysicalPlan.tupleSize (.node group (.sort order) inputs))) inputs'
      have hbelow := EstimatedAlike.node (s := s) (b := b) group (.sort order) (hmeet ih hinputs')
      exact ⟨hbelow.columns.trans hspilled.columns.symm,
        hbelow.statistics.trans hspilled.statistics.symm, hbelow.rows.trans hspilled.rows.symm⟩
  · intro group op inputs inputs' hnone _ _ _ ih u' h'
    cases h' with
    | fires hr h' _ _ =>
      rw [hnone _ hr] at h'
      cases h'
    | @spilled group order inputs inputs'' hinputs' _ _ =>
      exact (EstimatedAlike.node group (.sort order) (hmeet ih hinputs')).trans
        (PhysicalPlan.estimatedAlike_spilled group order _ inputs'')
    | kept _ hinputs' _ _ =>
      exact .node group op (hmeet ih hinputs')

/-- What becomes of a valid plan has its columns. -/
theorem columns (h : Settled scope course t u) (ht : t.validate = .ok ()) :
    u.columns = t.columns := by
  have hall {inputs inputs' : List PhysicalPlan}
      (hinputs : List.Forall₂ (fun c d : PhysicalPlan => c.validate = .ok () → d.columns = c.columns)
        inputs inputs') (hvalid : ∀ c ∈ inputs, c.validate = .ok ()) :
      inputs'.map PhysicalPlan.columns = inputs.map PhysicalPlan.columns := by
    induction hinputs with
    | nil => rfl
    | cons hc _ ih =>
      obtain ⟨hfirst, hrest⟩ := List.forall_mem_cons.1 hvalid
      rw [List.map_cons, List.map_cons, hc hfirst, ih hrest]
  refine induct (motive := fun t u => t.validate = .ok () → u.columns = t.columns) ?_ ?_ ?_ h ht
  · intro r t group op inputs inputs' _ h _ _ ih ht
    have hconforms := (Rule.replacement_of_apply h).conforms ht
    rw [← hconforms.columns, PhysicalPlan.columns_node, PhysicalPlan.columns_node,
      hall ih (PhysicalPlan.validate_node.1 hconforms.valid).2]
  · intro group order inputs inputs' _ _ _ ih ht
    rw [PhysicalPlan.columns_node, PhysicalPlan.columns_node,
      hall ih (PhysicalPlan.validate_node.1 ht).2]
    rfl
  · intro group op inputs inputs' _ _ _ _ ih ht
    rw [PhysicalPlan.columns_node, PhysicalPlan.columns_node,
      hall ih (PhysicalPlan.validate_node.1 ht).2]

/-! ### Rules before and after -/

/-- Two plans with one root over inputs of which the second ones have come from the first ones. -/
def Over (scope : RewriteScope) (course : Course) (t u : PhysicalPlan) : Prop :=
  ∃ group op inputs inputs', t = .node group op inputs ∧ u = .node group op inputs' ∧
    List.Forall₂ (Settled scope course) inputs inputs' ∧ List.Forall₂ course.visits inputs inputs'

/-- A rule that does not depend on estimates finds the same before and after its inputs settle. -/
theorem apply_over {r : Rule} (hr : r ∈ steadyRules) (hleafy : ∀ c ∈ inputs, c.Leafy)
    (hinputs : List.Forall₂ (Settled scope course) inputs inputs')
    (hvisits : List.Forall₂ course.visits inputs inputs')
    (hproducts : ∀ c : PhysicalPlan, c.Every (isProduct · = true) → course.visits c c) :
    Except.Both (Option.Rel (Over scope course)) (r.apply scope (.node group op inputs))
      (r.apply scope (.node group op inputs')) := by
  -- Rules that look for a scan find it in the same place.
  have hscans : inputs = inputs' ∧
      (∃ g table cs i n, inputs = [.node g (.scan table cs i n) []]) ∨
      (∀ g table cs i n below, inputs ≠ [.node g (.scan table cs i n) below]) ∧
        ∀ g table cs i n below, inputs' ≠ [.node g (.scan table cs i n) below] := by
    by_cases hscan : ∃ g table cs i n below, inputs = [.node g (.scan table cs i n) below]
    · obtain ⟨g, table, cs, i, n, below, rfl⟩ := hscan
      obtain rfl := (leafy_node.1 (hleafy _ (List.mem_singleton_self _))).1 table cs i n rfl
      obtain ⟨d, rest, hd, hrest, rfl⟩ := List.forall₂_cons_left_iff.1 hinputs
      obtain rfl := List.forall₂_nil_left_iff.1 hrest
      exact .inl ⟨by rw [hd.eq_of_scan], g, table, cs, i, n, rfl⟩
    · refine .inr ⟨fun g table cs i n below h => hscan ⟨g, table, cs, i, n, below, h⟩, ?_⟩
      rintro g table cs i n below rfl
      obtain ⟨c, hc, rfl⟩ := eq_singleton_of_forall₂ hinputs
      have hsame := hc.eq_of_becomes_scan (hleafy c (List.mem_singleton_self c)) rfl
      exact hscan ⟨g, table, cs, i, n, below, by rw [← hsame]⟩
  have hsame {u : PhysicalPlan} (hu : ∀ c ∈ u.inputs, Every (isProduct · = true) c) :
      Over scope course u u := by
    obtain ⟨g, op, below⟩ := u
    exact ⟨g, op, below, below, rfl, rfl,
      List.forall₂_same.2 fun c hc => of_products (hu c hc) hproducts,
      List.forall₂_same.2 fun c hc => hproducts c (hu c hc)⟩
  cases r with
  | countPushdown =>
    rcases hscans with ⟨rfl, _⟩ | ⟨hbefore, hafter⟩
    · refine .ok ?_
      unfold Rule.pushCount
      split
      · exact .some (hsame (List.forall_mem_nil _))
      · exact .none
    · rw [Rule.apply, Rule.apply, Rule.pushCount_eq_none hbefore, Rule.pushCount_eq_none hafter]
      exact .ok .none
  | booleanIndexScan =>
    rcases hscans with ⟨rfl, g, table, cs, i, n, rfl⟩ | ⟨hbefore, hafter⟩
    · cases hfound : Rule.booleanIndexScan.apply scope
          (.node group op [.node g (.scan table cs i n) []]) with
      | error crash => exact .error crash
      | ok found =>
        refine .ok ?_
        cases found with
        | none => exact .none
        | some u =>
          obtain ⟨g', op', below⟩ := u
          exact .some (hsame (every_node.1 (Rule.useIndex_products hfound)).2)
    · rw [Rule.apply, Rule.apply, Rule.useIndex_eq_none hbefore, Rule.useIndex_eq_none hafter]
      exact .ok .none
  | limitingSortMerge =>
    refine .ok ?_
    by_cases hsorts : ∃ g order op below, Sorts order op ∧ inputs = [.node g op below]
    · obtain ⟨g, order, op', below, hop, rfl⟩ := hsorts
      obtain ⟨d, rest, hd, hrest, rfl⟩ := List.forall₂_cons_left_iff.1 hinputs
      obtain rfl := List.forall₂_nil_left_iff.1 hrest
      obtain ⟨op'', below', rfl, hop', hbelow⟩ := hd.sorts hop
      cases op with
      | limit bounds =>
        have hfused : Over scope course (.node group (.limitingSort order bounds) below)
            (.node group (.limitingSort order bounds) below') :=
          ⟨_, _, _, _, rfl, rfl, hbelow⟩
        cases hop <;> cases hop' <;> exact .some hfused
      | _ => exact .none
    · have hbefore : ∀ g order op below, Sorts order op → inputs ≠ [.node g op below] :=
        fun g order op below hop h => hsorts ⟨g, order, op, below, hop, h⟩
      have hafter : ∀ g order op below, Sorts order op → inputs' ≠ [.node g op below] := by
        rintro g order op below hop rfl
        obtain ⟨⟨g', op', below'⟩, hc, rfl⟩ := eq_singleton_of_forall₂ hinputs
        exact hsorts ⟨g', order, op', below', hc.sorts_of_becomes hop, rfl⟩
      rw [Rule.fuseLimit_eq_none hbefore, Rule.fuseLimit_eq_none hafter]
      exact .none
  | externalSort => exact absurd hr (by decide)
  | functionVectorisation =>
    refine .ok ?_
    cases op with
    | function f arguments out =>
      simp only [Rule.vectorise]
      split
      · exact .none
      · cases f.vectorised? with
        | none => exact .none
        | some f' => exact .some ⟨_, _, _, _, rfl, rfl, hinputs, hvisits⟩
    | _ => exact .none

end Settled

/-! ## Passes -/

theorem Rule.mem_steady (r : Rule) : r ∈ steadyRules ∨ r = externalSort := by
  cases r <;> decide

/-- Going down, a sort spills if it exceeds the budget before its input is visited, or when a later
pass comes to it. -/
def Course.down (scope : RewriteScope) : Course where
  visits c _ := ∃ w, Rewritten.topDown scope Rule.all c = .ok w
  spills u u' := Exceeds scope u ∨ Exceeds scope u'
  stays u _ := ¬ Exceeds scope u

/-- Going up, a sort spills if it exceeds the budget after its input has been visited. -/
def Course.up (scope : RewriteScope) : Course where
  visits c d := ∃ w, Rewritten.bottomUp scope Rule.all c = .ok w ∧ w.plan = d
  spills _ u' := Exceeds scope u'
  stays _ u' := ¬ Exceeds scope u'

namespace Rewritten

open Rule (Replacement)

variable {scope : RewriteScope} {t u : PhysicalPlan} {w : Rewritten} {group : GroupId}
  {op : Operator} {inputs inputs' : List PhysicalPlan}

theorem not_exceeds (h : ∀ r ∈ Rule.all, r.apply scope t = .ok none) : ¬ Exceeds scope t := by
  rintro ⟨u, hu⟩
  have hnone : Rule.spillSort scope t = .ok none := h .externalSort (Rule.mem_all _)
  rw [hu] at hnone
  cases hnone

/-- As many tuples fit into memory before a sort's inputs settle as afterwards. -/
theorem chunk_settled {course : Course} {order : SortOrder}
    (ht : PhysicalPlan.validate (.node group (.sort order) inputs) = .ok ())
    (hinputs : List.Forall₂ (Settled scope course) inputs inputs') :
    chunk scope (PhysicalPlan.tupleSize (.node group (.sort order) inputs')) =
      chunk scope (PhysicalPlan.tupleSize (.node group (.sort order) inputs)) := by
  have hvalid := (PhysicalPlan.validate_node.1 ht).2
  have hcolumns : inputs'.map PhysicalPlan.columns = inputs.map PhysicalPlan.columns := by
    rw [← List.forall₂_eq_eq_eq, List.forall₂_map_left_iff, List.forall₂_map_right_iff]
    exact ((forall₂_mem hinputs).imp fun c d hc => hc.2.columns (hvalid c hc.1)).flip
  rw [PhysicalPlan.tupleSize, PhysicalPlan.tupleSize, PhysicalPlan.columns_node,
    PhysicalPlan.columns_node, hcolumns]

theorem topDown_settled (h : topDown scope Rule.all t = .ok w) :
    Settled scope (.down scope) t w.plan := by
  induction hn : t.weight using Nat.strongRecOn generalizing t w with
  | ind n ih =>
    obtain ⟨⟨⟨⟨group, op, inputs⟩, fired⟩, hlighter⟩, hfirst, below, hbelow, rfl⟩ :=
      topDown_eq_ok.1 h
    have hinputs : List.Forall₂ (Settled scope (.down scope)) inputs (below.map plan) :=
      List.forall₂_map_right_iff.2 ((forall₂_mem hbelow).imp fun c v hv =>
        ih (PhysicalPlan.weight c) (hn ▸ hlighter c hv.1) hv.2 rfl)
    have hvisits : List.Forall₂ (Course.down scope).visits inputs (below.map plan) :=
      List.forall₂_map_right_iff.2 (hbelow.imp fun c v hv => ⟨v, hv⟩)
    rcases step_cases hfirst with ⟨hsame, hnone⟩ | ⟨r, _, u, hu, hw⟩
    · cases hsame
      exact .kept (fun r _ => hnone r r.mem_all) hinputs hvisits fun _ _ => not_exceeds hnone
    · cases hw
      rcases r.mem_steady with hr | rfl
      · exact .fires hr hu hinputs hvisits
      · obtain ⟨hexceeds, g, order, below, rfl, heq⟩ := Rule.spill_eq_some hu
        cases heq
        exact .spilled hinputs hvisits (.inl hexceeds)

theorem bottomUp_settled (ht : t.validate = .ok ()) (h : bottomUp scope Rule.all t = .ok w) :
    Settled scope (.up scope) t w.plan := by
  induction t using PlanTree.induct generalizing w with
  | node group op inputs ih =>
    obtain ⟨below, hbelow, ⟨⟨v, fired⟩, hlighter⟩, hlast, rfl⟩ := bottomUp_node_eq_ok.1 h
    have hvalid := (PhysicalPlan.validate_node.1 ht).2
    have hinputs : List.Forall₂ (Settled scope (.up scope)) inputs (below.map plan) :=
      List.forall₂_map_right_iff.2 ((forall₂_mem hbelow).imp fun c v hv =>
        ih c hv.1 (hvalid c hv.1) hv.2)
    have hvisits : List.Forall₂ (Course.up scope).visits inputs (below.map plan) :=
      List.forall₂_map_right_iff.2 (hbelow.imp fun c v hv => ⟨v, hv, rfl⟩)
    have hover (r : Rule) (hr : r ∈ steadyRules) :
        Except.Both (Option.Rel (Settled.Over scope (.up scope)))
          (r.apply scope (.node group op inputs)) (r.apply scope (.node group op (below.map plan))) :=
      Settled.apply_over hr
        (fun c hc => PhysicalPlan.leafy_of_validate (hvalid c hc)) hinputs hvisits fun c hc =>
          ⟨_, bottomUp_of_rests (PhysicalPlan.rests_of_products hc), rfl⟩
    rcases step_cases hlast with ⟨hsame, hnone⟩ | ⟨r, _, u, hu, hw⟩
    · cases hsame
      refine .kept (fun r hr => ?_) hinputs hvisits fun _ _ => not_exceeds hnone
      have hboth := hover r hr
      rw [hnone r r.mem_all] at hboth
      generalize r.apply scope (.node group op inputs) = found at hboth
      cases hboth with
      | ok hrel =>
        cases hrel
        rfl
    · cases hw
      rcases r.mem_steady with hr | rfl
      · have hboth := hover r hr
        rw [hu] at hboth
        generalize hfound : r.apply scope (.node group op inputs) = found at hboth
        cases hboth with
        | ok hrel =>
          cases hrel with
          | some hsame =>
            obtain ⟨g, op', ins, outs, rfl, rfl, hins, hvisited⟩ := hsame
            exact .fires hr hfound hins hvisited
      · obtain ⟨hexceeds, g, order, below', heq, rfl⟩ := Rule.spill_eq_some hu
        obtain ⟨rfl, rfl, rfl⟩ := PlanTree.node.inj heq
        rw [chunk_settled ht hinputs]
        exact .spilled hinputs hvisits hexceeds

/-- What exceeds the budget over inputs that have settled does so over all that they may become. -/
theorem exceeds_settled {order : SortOrder} {course course' : Course} {outputs : List PhysicalPlan}
    (h : List.Forall₂ (Settled scope course) inputs inputs')
    (h' : List.Forall₂ (Settled scope course') inputs outputs)
    (hexceeds : Exceeds scope (.node group (.sort order) inputs')) :
    Exceeds scope (.node group (.sort order) outputs) :=
  Rule.exceeds_of_alike (forall₂_meet h h' fun _ _ _ _ hc hc' => hc.estimatedAlike hc') hexceeds

/-- Inputs that have been visited stay visited in a further pass. -/
theorem visits_again {below : List Rewritten}
    (h : List.Forall₂ (Course.down scope).visits inputs inputs')
    (hpass : List.Forall₂ (fun c v => topDown scope Rule.all c = .ok v) inputs' below) :
    List.Forall₂ (Course.down scope).visits inputs (below.map plan) :=
  List.forall₂_map_right_iff.2 (forall₂_through h hpass fun _ _ _ _ hc _ => hc)

/-- Whether a further pass going down leaves what has become of a valid plan settled. -/
def Resettles (scope : RewriteScope) (t u : PhysicalPlan) : Prop :=
  t.validate = .ok () → ∀ w, topDown scope Rule.all u = .ok w →
    Settled scope (.down scope) t w.plan

theorem settled_again {below : List Rewritten} (hvalid : ∀ c ∈ inputs, c.validate = .ok ())
    (h : List.Forall₂ (Resettles scope) inputs inputs')
    (hpass : List.Forall₂ (fun c v => topDown scope Rule.all c = .ok v) inputs' below) :
    List.Forall₂ (Settled scope (.down scope)) inputs (below.map plan) :=
  List.forall₂_map_right_iff.2 (forall₂_through h hpass fun c hc _ v hsettles hv =>
    hsettles (hvalid c hc) v hv)

/-- A further pass going down only lets sorts spill. -/
theorem topDown_resettled (hu : Settled scope (.down scope) t u) : Resettles scope t u := by
  refine Settled.induct ?_ ?_ ?_ hu
  · intro r t group op inputs inputs' hr happly _ hvisits ih ht w h
    have hreplacement := Rule.replacement_of_apply happly
    have hproduct : isProduct op = true := hreplacement.product
    have hvalid := (PhysicalPlan.validate_node.1 (hreplacement.conforms ht).valid).2
    obtain ⟨first, hfirst, below, hpass, rfl⟩ := topDown_eq_ok.1 h
    rcases step_cases hfirst with ⟨hsame, _⟩ | ⟨r', _, u, hu, _⟩
    · rw [hsame] at hpass ⊢
      exact .fires hr happly (settled_again hvalid ih hpass) (visits_again hvisits hpass)
    · rw [r'.apply_product hproduct] at hu
      cases hu
  · intro group order inputs inputs' hinputs hvisits hspills ih ht w h
    have hvalid := (PhysicalPlan.validate_node.1 ht).2
    obtain ⟨first, hfirst, below, hpass, rfl⟩ := topDown_eq_ok.1 h
    rcases step_cases hfirst with ⟨hsame, _⟩ | ⟨r', _, u, hu, _⟩
    · rw [hsame] at hpass ⊢
      have hsettled := settled_again hvalid ih hpass
      exact .spilled hsettled (visits_again hvisits hpass)
        (hspills.imp id (exceeds_settled hinputs hsettled))
    · rw [r'.apply_product rfl] at hu
      cases hu
  · intro group op inputs inputs' hnone hinputs hvisits hstays ih ht w h
    have hvalid := (PhysicalPlan.validate_node.1 ht).2
    obtain ⟨first, hfirst, below, hpass, rfl⟩ := topDown_eq_ok.1 h
    rcases step_cases hfirst with ⟨hsame, _⟩ | ⟨r, _, u, hu, hw⟩
    · rw [hsame] at hpass ⊢
      exact .kept hnone (settled_again hvalid ih hpass) (visits_again hvisits hpass) hstays
    · rcases r.mem_steady with hr | rfl
      · -- The rule would have fired before.
        have hboth : Except.Both (Option.Rel (Settled.Over scope (.down scope)))
            (r.apply scope (.node group op inputs)) (r.apply scope (.node group op inputs')) :=
          Settled.apply_over hr
            (fun c hc => PhysicalPlan.leafy_of_validate (hvalid c hc)) hinputs hvisits fun c hc =>
              ⟨_, topDown_of_rests (PhysicalPlan.rests_of_products hc)⟩
        rw [hnone r hr, hu] at hboth
        cases hboth with
        | ok hrel => cases hrel
      · obtain ⟨hlate, g, order, below', heq, rfl⟩ := Rule.spill_eq_some hu
        obtain ⟨rfl, rfl, rfl⟩ := PlanTree.node.inj heq
        rw [hw] at hpass ⊢
        have hsettled := settled_again hvalid ih hpass
        rw [chunk_settled ht hinputs]
        exact .spilled hsettled (visits_again hvisits hpass)
          (.inr (exceeds_settled hinputs hsettled hlate))

end Rewritten

/-! ## Outcomes -/

/-- How the rewriting of a scope goes. -/
def RewriteScope.course (scope : RewriteScope) : Course :=
  match scope.config.matchOrder with
  | .topDown => .down scope
  | .bottomUp => .up scope

namespace RewriteOutcome

open Rewritten (pass topDown)

variable {scope : RewriteScope} {t : PhysicalPlan} {out : RewriteOutcome}

/-- Passes going down end with a plan in which nothing fires. -/
theorem proceed_down (horder : scope.config.matchOrder = .topDown) (ht : t.validate = .ok ())
    {made left : Nat} {w : Rewritten} (hw : Settled scope (.down scope) t w.plan)
    (h : proceed scope Rule.all made w left = pure out) :
    Settled scope (.down scope) t out.plan ∧ out.plan.Rests scope Rule.all := by
  induction left generalizing made w with
  | zero => cases h
  | succ left ih =>
    cases hpass : pass scope Rule.all w.plan with
    | error crash =>
      rw [proceed, hpass] at h
      cases h
    | ok next =>
      have hdown : topDown scope Rule.all w.plan = .ok next := by
        rwa [Rewritten.pass, horder] at hpass
      have hnext := Rewritten.topDown_resettled hw ht next hdown
      rw [proceed_succ hpass] at h
      split at h
      · rename_i hfired
        cases h
        obtain ⟨hsame, hrests⟩ := Rewritten.rests_of_topDown hdown (List.isEmpty_iff.1 hfired)
        exact ⟨hnext, hsame ▸ hrests⟩
      · exact ih (w := ⟨next.plan, w.fired ++ next.fired⟩) hnext h

/-- The outcome for a valid plan has settled, and nothing fires at it. -/
theorem rewrite_settled (ht : t.validate = .ok ()) (h : rewrite scope Rule.all t = pure out) :
    Settled scope scope.course t out.plan ∧ out.plan.Rests scope Rule.all := by
  rw [rewrite] at h
  cases hmax : scope.config.maxPasses with
  | zero =>
    rw [hmax] at h
    cases h
  | succ left =>
    rw [hmax] at h
    cases hpass : pass scope Rule.all t with
    | error crash =>
      rw [proceed, hpass] at h
      cases h
    | ok next =>
      rw [proceed_succ (w := ⟨t, []⟩) hpass] at h
      rw [RewriteScope.course]
      cases horder : scope.config.matchOrder with
      | topDown =>
        rw [Rewritten.pass, horder] at hpass
        have hnext := Rewritten.topDown_settled hpass
        split at h
        · rename_i hfired
          cases h
          obtain ⟨hsame, hrests⟩ := Rewritten.rests_of_topDown hpass (List.isEmpty_iff.1 hfired)
          exact ⟨hnext, hsame ▸ hrests⟩
        · exact proceed_down (w := ⟨next.plan, _⟩) horder ht hnext h
      | bottomUp =>
        rw [Rewritten.pass, horder] at hpass
        have hrests := Rewritten.bottomUp_rests hpass
        have hout : out.plan = next.plan := by
          split at h
          · cases h
            rfl
          · cases left with
            | zero => cases h
            | succ left =>
              change proceed scope Rule.all 1 next (left + 1) = _ at h
              rw [proceed_succ (Rewritten.pass_of_rests hrests)] at h
              cases h
              rfl
        rw [hout]
        exact ⟨Rewritten.bottomUp_settled ht hpass, hrests⟩

end RewriteOutcome

end QueryEngine
