import QueryEngine.Proofs.MatchOrders

/-!
# The memory budget

A sort that is still in memory after rewriting has room for its whole input. A limit directly above
a sort takes the sort in, though, whatever the budget: what is made of the two keeps as many tuples
as the limit reaches. Rewriting leaves these bounded sorts as they are in the given plan, so that the
rewritten plan is within the budget exactly if they are.
-/

set_option autoImplicit false

namespace QueryEngine

open PhysicalPlan (Every rests_node scan_valid validate_node validate_subtrees)
open Rule (Exceeds Replacement Sorts isProduct saturatingMul)
open Rewritten (steadyRules)

/-! ## Room for tuples -/

/-- Limits, and sorts that are bounded by one. -/
def Operator.isBounding : Operator → Bool
  | limit _ => true
  | limitingSort .. => true
  | _ => false

/-- Sorts that keep their tuples in memory. -/
def Operator.sortsInMemory : Operator → Bool
  | sort _ => true
  | limitingSort .. => true
  | _ => false

/-- How many of `n` tuples an operator that sorts in memory keeps at a time. -/
def Operator.retained (n : UInt64) : Operator → Option UInt64
  | sort _ => some n
  | limitingSort _ bounds => some (min n bounds.reach)
  | _ => none

/-- Whether the budget has room for so many tuples of a size. The largest budget is no bound. -/
def RewriteScope.HasRoom (scope : RewriteScope) (n : UInt64) (size : Nat) : Prop :=
  n.toNat * size ≤ scope.config.memoryBudget.toNat ∨
    scope.config.memoryBudget.toNat + 1 = UInt64.size

instance (scope : RewriteScope) (n : UInt64) (size : Nat) : Decidable (scope.HasRoom n size) :=
  inferInstanceAs (Decidable (_ ∨ _))

/-- What a node that sorts in memory keeps of its estimated input. -/
def PhysicalPlan.Retains (scope : RewriteScope) (t : PhysicalPlan) (kept : UInt64) : Prop :=
  ∃ input rows, t.inputs = [input] ∧
    PhysicalPlan.rows scope.store scope.bindings input = .ok rows ∧ t.op.retained rows = some kept

/-- Whether a node that sorts in memory has room for what it keeps, or keeps one tuple at most. -/
def PhysicalPlan.WithinBudget (scope : RewriteScope) (t : PhysicalPlan) : Prop :=
  ∃ kept, t.Retains scope kept ∧ (kept ≤ 1 ∨ scope.HasRoom kept t.tupleSize)

namespace PhysicalPlan

variable {scope : RewriteScope} {t input : PhysicalPlan} {group : GroupId}

theorem tupleSize_lt (t : PhysicalPlan) : t.tupleSize < UInt64.size :=
  Nat.max_lt.2 ⟨Nat.mod_lt _ (by decide), by decide⟩

theorem tupleSize_congr {u : PhysicalPlan} (h : t.columns = u.columns) :
    t.tupleSize = u.tupleSize := by
  rw [tupleSize, h, tupleSize]

theorem tupleSize_limitingSort (order : SortOrder) (bounds : RowLimit) :
    tupleSize (.node group (.limitingSort order bounds) [input]) = input.tupleSize :=
  tupleSize_congr (columns_node group (.limitingSort order bounds) [input])

end PhysicalPlan

theorem RewriteScope.hasRoom_of_saturatingMul {scope : RewriteScope} {n : UInt64} {size : Nat}
    (hsize : size < UInt64.size)
    (h : saturatingMul n (UInt64.ofNat size) ≤ scope.config.memoryBudget) : scope.HasRoom n size := by
  have hproduct : (saturatingMul n (UInt64.ofNat size)).toNat = min (n.toNat * size) (UInt64.size - 1) := by
    rw [saturatingMul, UInt64.toNat_ofNat_of_lt' hsize]
    exact UInt64.toNat_ofNat_of_lt' (Nat.lt_of_le_of_lt (Nat.min_le_right ..) (by decide))
  have hbudget := UInt64.toNat_lt scope.config.memoryBudget
  rw [UInt64.le_iff_toNat_le, hproduct] at h
  rcases Nat.le_total (n.toNat * size) (UInt64.size - 1) with hsmall | hlarge
  · exact .inl (by rwa [Nat.min_eq_left hsmall] at h)
  · rw [Nat.min_eq_right hlarge] at h
    exact .inr (by simp only [UInt64.size] at h ⊢; omega)

/-- A sort that no rule replaces has room for its input. -/
theorem PhysicalPlan.sort_hasRoom {scope : RewriteScope} {group : GroupId} {order : SortOrder}
    {input : PhysicalPlan}
    (h : ∀ r ∈ Rule.all, r.apply scope (.node group (.sort order) [input]) = .ok none) :
    ∃ n, Retains scope (.node group (.sort order) [input]) n ∧
      scope.HasRoom n (tupleSize (.node group (.sort order) [input])) := by
  have hnone : Rule.spillSort scope (.node group (.sort order) [input]) = .ok none :=
    h .externalSort (Rule.mem_all _)
  obtain ⟨rows, hrows, _⟩ := Except.bind_eq_ok.1 hnone
  refine ⟨rows, ⟨input, rows, rfl, hrows, rfl⟩, ?_⟩
  refine RewriteScope.hasRoom_of_saturatingMul (tupleSize_lt _) (UInt64.not_lt.1 fun hlarge => ?_)
  exact Rewritten.not_exceeds h (Rule.exceeds_iff.2 ⟨rows, hrows, hlarge⟩)

/-! ## Bounded sorts -/

/-- A sort of which only the tuples are asked that a limit reaches. -/
structure BoundedSort where
  order : SortOrder
  bounds : RowLimit
  input : PhysicalPlan

namespace PhysicalPlan

/-- The bounded sort that a node is: a limit over a sort, or what is made of the two. -/
def boundedSort? : PhysicalPlan → Option BoundedSort
  | .node _ (.limit bounds) [.node _ (.sort order) [input]] => some ⟨order, bounds, input⟩
  | .node _ (.limit bounds) [.node _ (.externalSort order _) [input]] => some ⟨order, bounds, input⟩
  | .node _ (.limitingSort order bounds) [input] => some ⟨order, bounds, input⟩
  | _ => none

def boundedSorts (t : PhysicalPlan) : List BoundedSort := t.subtrees.filterMap boundedSort?

variable {scope : RewriteScope} {t u : PhysicalPlan} {group g : GroupId} {op : Operator}
  {inputs : List PhysicalPlan}

theorem boundedSorts_node : boundedSorts (.node group op inputs) =
    (boundedSort? (.node group op inputs)).toList ++ inputs.flatMap boundedSorts := by
  have hbelow : (inputs.flatMap PlanTree.subtrees).filterMap boundedSort? =
      inputs.flatMap boundedSorts := by
    rw [List.filterMap_flatMap]
    rfl
  have hnode : PlanTree.subtrees (.node group op inputs) =
      .node group op inputs :: inputs.flatMap PlanTree.subtrees := by
    rw [PlanTree.subtrees, PlanTree.fold_node, List.flatMap_def]
  rw [boundedSorts, hnode, List.filterMap_cons, hbelow]
  cases boundedSort? (.node group op inputs) <;> rfl

theorem boundedSort?_limit (bounds : RowLimit) {order : SortOrder} (h : Sorts order op)
    (input : PhysicalPlan) : boundedSort? (.node group (.limit bounds) [.node g op [input]]) =
      some ⟨order, bounds, input⟩ := by
  cases h <;> rfl

/-- A bounded sort is a limit over a sort or sorts itself. -/
theorem boundedSort?_cases {b : BoundedSort} (h : t.boundedSort? = some b) :
    (∃ group g op, t = .node group (.limit b.bounds) [.node g op [b.input]] ∧ Sorts b.order op) ∨
      ∃ group, t = .node group (.limitingSort b.order b.bounds) [b.input] := by
  unfold boundedSort? at h
  split at h <;> cases h
  · exact .inl ⟨_, _, _, rfl, .inside⟩
  · exact .inl ⟨_, _, _, rfl, .outside _⟩
  · exact .inr ⟨_, rfl⟩

theorem validate_boundedSorts (ht : t.validate = .ok ()) :
    ∀ b ∈ t.boundedSorts, b.input.validate = .ok () := by
  intro b hb
  obtain ⟨u, hu, hsome⟩ := List.mem_filterMap.1 hb
  have hvalid := validate_subtrees ht u hu
  rcases boundedSort?_cases hsome with ⟨_, _, _, rfl, _⟩ | ⟨_, rfl⟩
  · have hsort := (validate_node.1 hvalid).2 _ (List.mem_singleton_self _)
    exact (validate_node.1 hsort).2 _ (List.mem_singleton_self _)
  · exact (validate_node.1 hvalid).2 _ (List.mem_singleton_self _)

theorem boundedSort?_eq_none (h : op.isBounding = false) :
    boundedSort? (.node group op inputs) = none := by
  rw [Option.eq_none_iff_forall_ne_some]
  intro b hb
  rcases boundedSort?_cases hb with ⟨_, _, _, ht, _⟩ | ⟨_, ht⟩ <;>
  · rw [(PlanTree.node.inj ht).2.1] at h
    cases h

theorem boundedSorts_eq_nil (h : t.Every (Operator.isBounding · = false)) : t.boundedSorts = [] := by
  refine List.filterMap_eq_nil_iff.2 fun u hu => ?_
  obtain ⟨group, op, inputs⟩ := u
  exact boundedSort?_eq_none (h _ hu)

theorem boundedSorts_inputs (h : op.isBounding = false) :
    boundedSorts (.node group op inputs) = inputs.flatMap boundedSorts := by
  rw [boundedSorts_node, boundedSort?_eq_none h]
  rfl

end PhysicalPlan

/-- A rule leaves the bounded sorts as they are. -/
theorem Rule.Replacement.boundedSorts {scope : RewriteScope} {t u : PhysicalPlan}
    (h : Replacement scope t u) (ht : t.validate = .ok ()) : u.boundedSorts = t.boundedSorts := by
  have hscan {group g : GroupId} {op : Operator} {table : TableHandle} {cs : List Column} {i : Nat}
      {below : List PhysicalPlan} (hop : op.isBounding = false)
      (hvalid : PhysicalPlan.validate (.node group op [.node g (.scan table cs i 1) below]) = .ok ()) :
      PhysicalPlan.boundedSorts (.node group op [.node g (.scan table cs i 1) below]) = [] := by
    obtain ⟨rfl, _⟩ := scan_valid ((validate_node.1 hvalid).2 _ (List.mem_singleton_self _))
    rw [PhysicalPlan.boundedSorts_inputs hop, List.flatMap_singleton,
      PhysicalPlan.boundedSorts_inputs rfl, List.flatMap_nil]
  cases h with
  | count group g table cs i below =>
    rw [hscan rfl ht]
    exact PhysicalPlan.boundedSorts_inputs rfl
  | lookUp group g table cs i p below hx hp =>
    rw [hscan rfl ht]
    exact PhysicalPlan.boundedSorts_eq_nil
      (Rule.every_indexPlan (P := (Operator.isBounding · = false)) rfl (fun _ _ => rfl) rfl group)
  | @fuse group g order bounds op hop inputs =>
    have hsort := (validate_node.1 ht).2 _ (List.mem_singleton_self _)
    obtain ⟨input, rfl⟩ := Rule.eq_single (validate_node.1 hsort).1 hop.laws.1
    have hother : op.isBounding = false := by cases hop <;> rfl
    rw [PhysicalPlan.boundedSorts_node, PhysicalPlan.boundedSorts_node,
      PhysicalPlan.boundedSort?_limit bounds hop, List.flatMap_singleton, List.flatMap_singleton,
      PhysicalPlan.boundedSorts_inputs hother, List.flatMap_singleton]
    rfl
  | spill group order chunk input others =>
    rw [PhysicalPlan.boundedSorts_inputs rfl, PhysicalPlan.boundedSorts_inputs rfl]
  | vectorise group hf arguments out inputs =>
    rw [PhysicalPlan.boundedSorts_inputs rfl, PhysicalPlan.boundedSorts_inputs rfl]

/-! ## What becomes of bounded sorts -/

/-- A bounded sort over what has become of the input of another one. -/
structure BoundedSort.Becomes (scope : RewriteScope) (course : Course) (b b' : BoundedSort) : Prop where
  order : b'.order = b.order
  bounds : b'.bounds = b.bounds
  settled : Settled scope course b.input b'.input
  visits : course.visits b.input b'.input

namespace Settled

variable {scope : RewriteScope} {course : Course} {t u : PhysicalPlan} {group : GroupId}
  {op : Operator} {inputs inputs' : List PhysicalPlan}

/-- Over inputs that have settled, a node that is not a limit over a sort is the same bounded sort. -/
theorem boundedSort?_over (hfuse : Rule.fuseLimit (.node group op inputs) = none)
    (hinputs : List.Forall₂ (Settled scope course) inputs inputs')
    (hvisits : List.Forall₂ course.visits inputs inputs') :
    List.Forall₂ (BoundedSort.Becomes scope course)
      (PhysicalPlan.boundedSort? (.node group op inputs)).toList
      (PhysicalPlan.boundedSort? (.node group op inputs')).toList := by
  cases op with
  | limit bounds =>
    have hnone {inputs : List PhysicalPlan} (h : ∀ g op below order, inputs = [.node g op below] →
        ¬ Sorts order op) : PhysicalPlan.boundedSort? (.node group (.limit bounds) inputs) = none := by
      rw [Option.eq_none_iff_forall_ne_some]
      intro b hb
      rcases PhysicalPlan.boundedSort?_cases hb with ⟨_, g, op, ht, hop⟩ | ⟨_, ht⟩
      · exact h g op _ _ (PlanTree.node.inj ht).2.2 hop
      · cases (PlanTree.node.inj ht).2.1
    have hbefore : ∀ g op below order, inputs = [.node g op below] → ¬ Sorts order op := by
      rintro g op below order rfl hop
      cases hop <;> cases hfuse
    rw [hnone hbefore, hnone]
    · exact .nil
    · rintro g op below order rfl hop
      obtain ⟨⟨g', op', below'⟩, hc, rfl⟩ := eq_singleton_of_forall₂ hinputs
      exact hbefore g' op' below' order rfl (hc.sorts_of_becomes hop)
  | limitingSort order bounds =>
    cases hinputs with
    | nil => exact .nil
    | cons hc hrest =>
      cases hrest with
      | nil => exact .cons ⟨rfl, rfl, hc, (List.forall₂_cons.1 hvisits).1⟩ .nil
      | cons _ _ => exact .nil
  | _ =>
    rw [PhysicalPlan.boundedSort?_eq_none rfl, PhysicalPlan.boundedSort?_eq_none rfl]
    exact .nil

/-- Each bounded sort of a plan becomes one, and no other ones come about. -/
theorem boundedSorts (h : Settled scope course t u) (ht : t.validate = .ok ()) :
    List.Forall₂ (BoundedSort.Becomes scope course) t.boundedSorts u.boundedSorts := by
  have hall {inputs inputs' : List PhysicalPlan}
      (ih : List.Forall₂ (fun c d : PhysicalPlan => c.validate = .ok () →
        List.Forall₂ (BoundedSort.Becomes scope course) c.boundedSorts d.boundedSorts) inputs inputs')
      (hvalid : ∀ c ∈ inputs, c.validate = .ok ()) :
      List.Forall₂ (BoundedSort.Becomes scope course) (inputs.flatMap PhysicalPlan.boundedSorts)
        (inputs'.flatMap PhysicalPlan.boundedSorts) := by
    induction ih with
    | nil => exact .nil
    | cons hc _ ih =>
      obtain ⟨hfirst, hrest⟩ := List.forall_mem_cons.1 hvalid
      exact List.rel_append (hc hfirst) (ih hrest)
  refine induct (motive := fun t u => t.validate = .ok () →
    List.Forall₂ (BoundedSort.Becomes scope course) t.boundedSorts u.boundedSorts) ?_ ?_ ?_ h ht
  · intro r t group op inputs inputs' hr h hinputs hvisits ih ht
    have hreplaced := Rule.replacement_of_apply h
    have hvalid := (validate_node.1 (hreplaced.conforms ht).valid).2
    have hfuse : Rule.fuseLimit (.node group op inputs) = none := by
      have hproduct := hreplaced.product
      cases op with
      | limit bounds => cases hproduct
      | _ => rfl
    rw [← hreplaced.boundedSorts ht, PhysicalPlan.boundedSorts_node, PhysicalPlan.boundedSorts_node]
    exact List.rel_append (boundedSort?_over hfuse hinputs hvisits) (hall ih hvalid)
  · intro group order inputs inputs' _ _ _ ih ht
    rw [PhysicalPlan.boundedSorts_inputs rfl, PhysicalPlan.boundedSorts_inputs rfl]
    exact hall ih (validate_node.1 ht).2
  · intro group op inputs inputs' hnone hinputs hvisits _ ih ht
    have hfuse : Rule.fuseLimit (.node group op inputs) = none :=
      Except.ok.inj (hnone .limitingSortMerge (by decide))
    rw [PhysicalPlan.boundedSorts_node, PhysicalPlan.boundedSorts_node]
    exact List.rel_append (boundedSort?_over hfuse hinputs hvisits) (hall ih (validate_node.1 ht).2)

end Settled

/-- What is visited while a plan is rewritten comes to the rows of what has settled. -/
theorem RewriteScope.course_visits {scope : RewriteScope} {t u : PhysicalPlan}
    (hvisits : scope.course.visits t u) (h : Settled scope scope.course t u) :
    ∃ w, Rewritten.pass scope Rule.all t = .ok w ∧ ∀ s b,
      PhysicalPlan.rows s b w.plan = PhysicalPlan.rows s b u := by
  unfold course at hvisits h
  unfold Rewritten.pass
  cases horder : scope.config.matchOrder with
  | topDown =>
    rw [horder] at hvisits h
    obtain ⟨w, hw⟩ := hvisits
    exact ⟨w, hw, fun s b => (h.estimatedAlike (Rewritten.topDown_settled hw)).rows⟩
  | bottomUp =>
    rw [horder] at hvisits
    obtain ⟨w, hw, rfl⟩ := hvisits
    exact ⟨w, hw, fun _ _ => rfl⟩

/-- Whether what is kept of a bounded sort has room, when its input has been rewritten by a pass, or
is one tuple at most. -/
def BoundedSort.Affordable (scope : RewriteScope) (b : BoundedSort) : Prop :=
  ∃ w rows, Rewritten.pass scope Rule.all b.input = .ok w ∧
    PhysicalPlan.rows scope.store scope.bindings w.plan = .ok rows ∧
      (min rows b.bounds.reach ≤ 1 ∨ scope.HasRoom (min rows b.bounds.reach) b.input.tupleSize)

theorem BoundedSort.Becomes.affordable_iff {scope : RewriteScope} {b b' : BoundedSort}
    (h : Becomes scope scope.course b b') (hb : b.input.validate = .ok ()) (group : GroupId) :
    b.Affordable scope ↔
      PhysicalPlan.WithinBudget scope (.node group (.limitingSort b'.order b'.bounds) [b'.input]) := by
  obtain ⟨w, hw, hrows⟩ := RewriteScope.course_visits h.visits h.settled
  have hsize : b.input.tupleSize = b'.input.tupleSize :=
    PhysicalPlan.tupleSize_congr (h.settled.columns hb).symm
  unfold Affordable PhysicalPlan.WithinBudget
  rw [PhysicalPlan.tupleSize_limitingSort, hsize, h.bounds]
  constructor
  · rintro ⟨w', rows, hw', hrows', hfits⟩
    cases hw.symm.trans hw'
    exact ⟨_, ⟨b'.input, rows, rfl, (hrows _ _).symm.trans hrows', rfl⟩, hfits⟩
  · rintro ⟨kept, ⟨input, rows, hinput, hrows', hkept⟩, hfits⟩
    cases hinput
    cases hkept
    exact ⟨w, rows, hw, (hrows _ _).trans hrows', hfits⟩

/-! ## Rewritten plans -/

open PhysicalPlan (Retains Rests WithinBudget tupleSize)

/-- Where no rule fires the bounded sorts are nodes of their own. -/
theorem PhysicalPlan.Rests.limitingSort {scope : RewriteScope} {t : PhysicalPlan}
    (h : t.Rests scope Rule.all) {b : BoundedSort} (hb : b ∈ t.boundedSorts) :
    ∃ group, .node group (.limitingSort b.order b.bounds) [b.input] ∈ t.subtrees := by
  obtain ⟨u, hu, hsome⟩ := List.mem_filterMap.1 hb
  rcases boundedSort?_cases hsome with ⟨_, _, _, rfl, hop⟩ | ⟨group, rfl⟩
  · have hfuse := Except.ok.inj (h _ hu .limitingSortMerge (Rule.mem_all _))
    cases hop <;> cases hfuse
  · exact ⟨group, hu⟩

/-- In the outcome for a valid plan each sort in memory has room for its input. The bounded sorts are
those of the given plan, whatever the budget, and all that sorts in memory is within the budget
exactly if they are affordable. -/
theorem RewriteOutcome.sorts_within_budget {scope : RewriteScope} {t : PhysicalPlan}
    {out : RewriteOutcome} (ht : t.validate = .ok ()) (h : rewrite scope Rule.all t = pure out) :
    (∀ u ∈ out.plan.subtrees, ∀ order, u.op = .sort order →
      ∃ n, Retains scope u n ∧ scope.HasRoom n (tupleSize u)) ∧
    (out.plan.boundedSorts.map fun b => (b.order, b.bounds)) =
      (t.boundedSorts.map fun b => (b.order, b.bounds)) ∧
    ((∀ u ∈ out.plan.subtrees, u.op.sortsInMemory = true → WithinBudget scope u) ↔
      ∀ b ∈ t.boundedSorts, b.Affordable scope) := by
  obtain ⟨hsettled, hrests⟩ := rewrite_settled ht h
  have hvalid : out.plan.validate = .ok () :=
    (FiresMany.conforms (proceed_fires (w := ⟨t, []⟩) h) ht).valid
  have hsorts := hsettled.boundedSorts ht
  have hinput := PhysicalPlan.validate_boundedSorts ht
  have hroom : ∀ u ∈ out.plan.subtrees, ∀ order, u.op = .sort order →
      ∃ n, Retains scope u n ∧ scope.HasRoom n (tupleSize u) := by
    rintro ⟨group, op, inputs⟩ hu order rfl
    obtain ⟨input, rfl⟩ := Rule.eq_single (validate_node.1 (validate_subtrees hvalid _ hu)).1 rfl
    exact PhysicalPlan.sort_hasRoom (hrests _ hu)
  refine ⟨hroom, ?_, ?_, ?_⟩
  · rw [← List.forall₂_eq_eq_eq, List.forall₂_map_left_iff, List.forall₂_map_right_iff]
    exact hsorts.flip.imp fun _ _ hb => Prod.ext hb.order hb.bounds
  · intro hwithin b hb
    obtain ⟨b', hb', hbecomes⟩ := exists_mem_of_forall₂ hsorts.flip hb
    obtain ⟨group, hu⟩ := hrests.limitingSort hb'
    exact (hbecomes.affordable_iff (hinput b hb) group).2 (hwithin _ hu rfl)
  · rintro haffordable ⟨group, op, inputs⟩ hu hop
    cases op with
    | sort order =>
      obtain ⟨n, hn, hfits⟩ := hroom _ hu order rfl
      exact ⟨n, hn, .inr hfits⟩
    | limitingSort order bounds =>
      obtain ⟨input, rfl⟩ := Rule.eq_single (validate_node.1 (validate_subtrees hvalid _ hu)).1 rfl
      obtain ⟨b, hb, hbecomes⟩ := exists_mem_of_forall₂ hsorts
        (List.mem_filterMap.2 ⟨_, hu, rfl⟩)
      exact (hbecomes.affordable_iff (hinput b hb) group).1 (haffordable b hb)
    | _ => cases hop

/-! ### The three least of five rows -/

namespace Repeats

def least : RowLimit := ⟨0, 3⟩

def scan : LogicalPlan := .node 0 (.scan handle [column]) []

/-- A limit over a sort, in memory for one tuple. -/
def leastRows : LogicalPlan := .node 0 (.limit least) [.node 0 (.sort order) [scan]]

def leastSorted : PhysicalPlan := .node 0 (.limitingSort order least) [scan.implement]

theorem scan_rests : scan.implement.Rests scope Rule.all :=
  rests_node.2 ⟨fun r _ => by cases r <;> rfl, List.forall_mem_nil _⟩

theorem rewrite_least : ∃ out, RewriteOutcome.rewrite scope Rule.all leastRows.implement = pure out ∧
    out.plan = leastSorted := by
  have hpass : Rewritten.pass scope Rule.all leastRows.implement =
      .ok ⟨leastSorted, [.limitingSortMerge]⟩ :=
    Rewritten.topDown_of_fires [.countPushdown, .booleanIndexScan] .limitingSortMerge _
      (fun r hr => by
        simp only [List.mem_cons, List.not_mem_nil, or_false] at hr
        rcases hr with rfl | rfl <;> rfl) rfl
      (.cons (Rewritten.topDown_of_rests scan_rests) .nil)
  refine RewriteOutcome.rewrite_of_rests hpass ?_ (by decide)
  exact rests_node.2 ⟨fun r _ => by cases r <;> rfl, List.forall_mem_singleton.2 scan_rests⟩

/-- Three tuples are kept where there is room for one. -/
theorem leastSorted_exceeds : Retains scope leastSorted 3 ∧ ¬ scope.HasRoom 3 (tupleSize leastSorted) :=
  ⟨⟨scan.implement, 5, rfl, rfl, rfl⟩, by decide⟩

theorem leastSorted_not_within : ¬ WithinBudget scope leastSorted := by
  rintro ⟨kept, ⟨input, rows, hinput, hrows, hkept⟩, hfits⟩
  cases hinput
  cases hrows
  cases hkept
  exact hfits.elim (by decide) leastSorted_exceeds.2

end Repeats

open Repeats in
theorem RewriteOutcome.sorts_within_budget_least : leastRows.implement.validate = .ok () ∧
    ∃ out, rewrite scope Rule.all leastRows.implement = pure out ∧
      (out.plan.boundedSorts.map fun b => (b.order, b.bounds)) = [(order, least)] ∧
      ∃ b ∈ leastRows.implement.boundedSorts, ¬ b.Affordable scope := by
  have hvalid : leastRows.implement.validate = .ok () := by decide
  obtain ⟨out, hout, hplan⟩ := rewrite_least
  obtain ⟨_, hsorts, hwithin⟩ := sorts_within_budget hvalid hout
  refine ⟨hvalid, out, hout, hsorts, ?_⟩
  by_contra hall
  push Not at hall
  have hleast := hwithin.2 hall leastSorted (hplan ▸ PhysicalPlan.mem_subtrees_self _) rfl
  exact leastSorted_not_within hleast

open Repeats in
/-- A limit over a sort keeps more than the budget in memory. -/
theorem RewriteOutcome.limit_exceeds_budget : leastRows.validate = .ok () ∧
    ∃ out, rewrite scope Rule.all leastRows.implement = pure out ∧
      ∃ u ∈ out.plan.subtrees, u.op.sortsInMemory = true ∧ Retains scope u 3 ∧
        ¬ scope.HasRoom 3 (tupleSize u) := by
  obtain ⟨out, hout, hplan⟩ := rewrite_least
  exact ⟨by decide, out, hout, leastSorted, hplan ▸ PhysicalPlan.mem_subtrees_self _, rfl,
    leastSorted_exceeds⟩

end QueryEngine
