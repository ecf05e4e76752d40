import Mathlib.Logic.Relation
import QueryEngine.Proofs.Estimates
import QueryEngine.Proofs.IndexScan
import QueryEngine.Rewrite.Pass

/-!
# Firings

A rule that fires puts one of five plans in the place of a node. A pass over a plan is a sequence of
firings at its nodes, so that what every firing keeps is kept by every pass. Over measurable tables
no pass crashes.
-/

set_option autoImplicit false

namespace QueryEngine

namespace Rule

/-! ## What rules put in the place of a node -/

/-- The operators that sort in memory or outside of it. -/
inductive Sorts (order : SortOrder) : Operator → Prop
  | inside : Sorts order (.sort order)
  | outside (chunk : Nat) : Sorts order (.externalSort order chunk)

/-- A node with the plan that some rule puts in its place. -/
inductive Replacement (scope : RewriteScope) : PhysicalPlan → PhysicalPlan → Prop
  | count (group g : GroupId) (t : TableHandle) (cs : List Column) (i : Nat)
      (below : List PhysicalPlan) :
      Replacement scope (.node group (.projection .count) [.node g (.scan t cs i 1) below])
        (.node group (.rowCount t ⟨"count", .long, false⟩) [])
  | lookUp (group g : GroupId) (t : TableHandle) (cs : List Column) (i : Nat) (p : Predicate)
      (below : List PhysicalPlan) {x : IndexHandle} (hx : x ∈ t.indexes scope.store)
      (hp : (scope.store.index x).canProcess p = true) :
      Replacement scope (.node group (.filter p) [.node g (.scan t cs i 1) below])
        (indexPlan group t cs p x)
  | fuse (group g : GroupId) {order : SortOrder} (bounds : RowLimit) {op : Operator}
      (hop : Sorts order op) (inputs : List PhysicalPlan) :
      Replacement scope (.node group (.limit bounds) [.node g op inputs])
        (.node group (.limitingSort order bounds) inputs)
  | spill (group : GroupId) (order : SortOrder) (chunk : Nat) (input : PhysicalPlan)
      (others : List PhysicalPlan) :
      Replacement scope (.node group (.sort order) (input :: others))
        (.node group (.externalSort order chunk) (input :: others))
  | vectorise (group : GroupId) {f f' : Function} (hf : f.vectorised? = some f')
      (arguments : List Binding) (out : Column) (inputs : List PhysicalPlan) :
      Replacement scope (.node group (.function f arguments out) inputs)
        (.node group (.function f' arguments out) inputs)

variable {scope : RewriteScope} {t u : PhysicalPlan}

theorem spillSort_cases (h : spillSort scope t = .ok (some u)) :
    ∃ group order chunk input others, t = .node group (.sort order) (input :: others) ∧
      u = .node group (.externalSort order chunk) (input :: others) := by
  unfold spillSort at h
  split at h
  · rename_i group order input others
    obtain ⟨rows, _, h⟩ := Except.bind_eq_ok.1 h
    dsimp only at h
    split at h
    · cases h
    · cases h
      exact ⟨group, order, _, input, others, rfl, rfl⟩
  · cases h

theorem replacement_of_apply {r : Rule} (h : r.apply scope t = .ok (some u)) :
    Replacement scope t u := by
  cases r with
  | countPushdown =>
    have h := Except.ok.inj h
    unfold pushCount at h
    split at h
    · cases h
      exact .count ..
    · cases h
  | booleanIndexScan =>
    have hfound : useIndex scope t = .ok (some u) := h
    rw [apply] at h
    unfold useIndex at h
    split at h
    · obtain ⟨x, hx, hp, rfl⟩ := useIndex_cases hfound
      exact .lookUp _ _ _ _ _ _ _ hx hp
    · cases h
  | limitingSortMerge =>
    have h := Except.ok.inj h
    unfold fuseLimit at h
    split at h
    · cases h
      exact .fuse _ _ _ .inside _
    · cases h
      exact .fuse _ _ _ (.outside _) _
    · cases h
  | externalSort =>
    obtain ⟨group, order, chunk, input, others, rfl, rfl⟩ := spillSort_cases h
    exact .spill ..
  | functionVectorisation =>
    have h := Except.ok.inj h
    unfold Rule.vectorise at h
    split at h
    · split at h
      · cases h
      · obtain ⟨f', hf, rfl⟩ := Option.map_eq_some_iff.1 h
        exact .vectorise _ hf _ _ _
    · cases h

/-! ## Properties of operators -/

/-- A property of operators that the operators have which a rule puts in the place of others. -/
structure Kept (scope : RewriteScope) (P : Operator → Prop) : Prop where
  count : ∀ {t cs i}, P (.scan t cs i 1) → P (.rowCount t ⟨"count", .long, false⟩)
  lookUp : ∀ {t cs i p x}, P (.scan t cs i 1) → P (.filter p) → x ∈ t.indexes scope.store →
    (scope.store.index x).canProcess p = true → P (.indexScan x t p)
  fetch : ∀ {t cs i ds}, P (.scan t cs i 1) → (∀ d ∈ ds, d ∈ cs) → P (.fetch t ds)
  select : ∀ {t cs i}, P (.scan t cs i 1) → P (.projection (.select cs))
  fuse : ∀ {order op} (bounds), Sorts order op → P op → P (.limitingSort order bounds)
  spill : ∀ {order} (chunk), P (.sort order) → P (.externalSort order chunk)
  vectorise : ∀ {f f' arguments out}, f.vectorised? = some f' → P (.function f arguments out) →
    P (.function f' arguments out)

open PhysicalPlan (every_node)

theorem every_indexPlan {P : Operator → Prop} {t : TableHandle} {cs : List Column} {p : Predicate}
    {x : IndexHandle} (hlookup : P (.indexScan x t p))
    (hfetch : ∀ ds : List Column, (∀ d ∈ ds, d ∈ cs) → P (.fetch t ds))
    (hselect : P (.projection (.select cs))) (group : GroupId) :
    (indexPlan group t cs p x).Every P := by
  have hleaf : (lookupPlan group t p x).Every P :=
    every_node.2 ⟨hlookup, List.forall_mem_nil _⟩
  have hfetched : (fetchPlan group t cs p x).Every P := by
    unfold fetchPlan
    split
    · exact hleaf
    · refine every_node.2 ⟨hfetch _ fun d hd => ?_, List.forall_mem_singleton.2 hleaf⟩
      exact (List.mem_filter.1 hd).1
  unfold indexPlan
  split
  · exact hfetched
  · exact every_node.2 ⟨hselect, List.forall_mem_singleton.2 hfetched⟩

theorem Replacement.every {P : Operator → Prop} (hP : Kept scope P) (h : Replacement scope t u)
    (ht : t.Every P) : u.Every P := by
  obtain ⟨hroot, hinputs⟩ : P t.op ∧ ∀ c ∈ t.inputs, PhysicalPlan.Every P c := by
    cases t
    exact every_node.1 ht
  cases h with
  | count group g t cs i below =>
    have hscan := (every_node.1 (hinputs _ (List.mem_singleton_self _))).1
    exact every_node.2 ⟨hP.count hscan, List.forall_mem_nil _⟩
  | lookUp group g t cs i p below hx hp =>
    have hscan := (every_node.1 (hinputs _ (List.mem_singleton_self _))).1
    exact every_indexPlan (hP.lookUp hscan hroot hx hp) (fun _ hds => hP.fetch hscan hds)
      (hP.select hscan) group
  | fuse group g bounds hop inputs =>
    obtain ⟨hsort, hbelow⟩ := every_node.1 (hinputs _ (List.mem_singleton_self _))
    exact every_node.2 ⟨hP.fuse bounds hop hsort, hbelow⟩
  | spill group order chunk input others => exact every_node.2 ⟨hP.spill chunk hroot, hinputs⟩
  | vectorise group hf arguments out inputs => exact every_node.2 ⟨hP.vectorise hf hroot, hinputs⟩

end Rule

/-- One subtree is replaced as a relation says. -/
inductive Somewhere (R : PhysicalPlan → PhysicalPlan → Prop) : PhysicalPlan → PhysicalPlan → Prop
  | here {t u : PhysicalPlan} (h : R t u) : Somewhere R t u
  | inside (group : GroupId) (op : Operator) (before after : List PhysicalPlan)
      {t u : PhysicalPlan} (h : Somewhere R t u) :
      Somewhere R (.node group op (before ++ t :: after)) (.node group op (before ++ u :: after))

theorem Somewhere.every {R : PhysicalPlan → PhysicalPlan → Prop} {P : Operator → Prop}
    (hR : ∀ t u, R t u → t.Every P → u.Every P) {t u : PhysicalPlan} (h : Somewhere R t u)
    (ht : t.Every P) : u.Every P := by
  induction h with
  | here h => exact hR _ _ h ht
  | inside group op before after _ ih =>
    obtain ⟨hop, hinputs⟩ := PhysicalPlan.every_node.1 ht
    rw [List.forall_mem_append, List.forall_mem_cons] at hinputs
    refine PhysicalPlan.every_node.2 ⟨hop, ?_⟩
    rw [List.forall_mem_append, List.forall_mem_cons]
    exact ⟨hinputs.1, ih hinputs.2.1, hinputs.2.2⟩

/-- One of some rules fires at one node of a plan. -/
abbrev Fires (scope : RewriteScope) (rules : List Rule) : PhysicalPlan → PhysicalPlan → Prop :=
  Somewhere fun t u => ∃ r ∈ rules, r.apply scope t = .ok (some u)

/-- Rules fire at nodes of a plan one after another. -/
abbrev FiresMany (scope : RewriteScope) (rules : List Rule) :
    PhysicalPlan → PhysicalPlan → Prop :=
  Relation.ReflTransGen (Fires scope rules)

namespace Fires

variable {scope : RewriteScope} {rules : List Rule} {t u : PhysicalPlan}

theorem every {P : Operator → Prop} (hP : Rule.Kept scope P) (h : Fires scope rules t u)
    (ht : t.Every P) : u.Every P :=
  Somewhere.every (fun _ _ ⟨_, _, happly⟩ ht => (Rule.replacement_of_apply happly).every hP ht) h ht

/-- Firings at the inputs of a node are firings within the node. -/
theorem inputs (group : GroupId) (op : Operator) (before : List PhysicalPlan)
    {after after' : List PhysicalPlan} (h : List.Forall₂ (FiresMany scope rules) after after') :
    FiresMany scope rules (.node group op (before ++ after))
      (.node group op (before ++ after')) := by
  induction h generalizing before with
  | nil => exact .refl
  | @cons t u rest rest' htu _ ih =>
    have hfirst : FiresMany scope rules (.node group op (before ++ t :: rest))
        (.node group op (before ++ u :: rest)) :=
      htu.lift (fun c => PlanTree.node group op (before ++ c :: rest)) fun _ _ hfire =>
        .inside group op before rest hfire
    have hrest := ih (before ++ [u])
    rw [List.append_assoc, List.append_assoc] at hrest
    exact hfirst.trans hrest

theorem every_of_many {P : Operator → Prop} (hP : Rule.Kept scope P)
    (h : FiresMany scope rules t u) (ht : t.Every P) : u.Every P := by
  induction h with
  | refl => exact ht
  | tail _ hfire ih => exact Fires.every hP hfire ih

end Fires

/-! ## Passes as firings -/

namespace Rewritten

variable {scope : RewriteScope} {rules : List Rule} {t : PhysicalPlan} {w : Rewritten}

theorem step_cases {w : { w : Rewritten // Rule.Lighter t w.plan }}
    (h : step scope t rules = .ok w) :
    (w.1 = ⟨t, []⟩ ∧ ∀ r ∈ rules, r.apply scope t = .ok none) ∨
      ∃ r ∈ rules, ∃ u, r.apply scope t = .ok (some u) ∧ w.1 = ⟨u, [r]⟩ := by
  induction rules with
  | nil =>
    cases h
    exact .inl ⟨rfl, List.forall_mem_nil _⟩
  | cons r rest ih =>
    unfold step at h
    split at h
    · cases h
    · rename_i u hu
      cases h
      exact .inr ⟨r, List.mem_cons_self, u, hu, rfl⟩
    · rename_i hnone
      rcases ih h with ⟨hw, hrest⟩ | ⟨r', hr', u, hu, hw⟩
      · exact .inl ⟨hw, List.forall_mem_cons.2 ⟨hnone, hrest⟩⟩
      · exact .inr ⟨r', List.mem_cons_of_mem _ hr', u, hu, hw⟩

theorem step_fires {w : { w : Rewritten // Rule.Lighter t w.plan }}
    (h : step scope t rules = .ok w) : FiresMany scope rules t w.1.plan := by
  rcases step_cases h with ⟨hw, _⟩ | ⟨r, hr, u, hu, hw⟩
  · rw [hw]
  · rw [hw]
    exact .single (.here ⟨r, hr, hu⟩)

/-- What a pass from the root on comes to: a step at the root and then passes over the inputs. -/
theorem topDown_eq_ok : topDown scope rules t = .ok w ↔
    ∃ first, step scope t rules = .ok first ∧ ∃ below : List Rewritten,
      List.Forall₂ (fun c v => topDown scope rules c = .ok v) first.1.plan.inputs below ∧
        w = ⟨first.1.plan.withInputs (below.map plan), first.1.fired ++ below.flatMap fired⟩ := by
  have hinputs {inputs : List PhysicalPlan} {below : List Rewritten} :
      (inputs.attach.mapM fun c => topDown scope rules c.1) = .ok below ↔
        List.Forall₂ (fun c v => topDown scope rules c = .ok v) inputs below := by
    rw [Except.mapM_eq_ok]
    constructor
    · intro h
      have hmap : List.Forall₂ (fun c v => topDown scope rules c = .ok v)
          (inputs.attach.map Subtype.val) below := List.forall₂_map_left_iff.2 h
      rwa [List.attach_map_subtype_val] at hmap
    · intro h
      rw [← List.attach_map_subtype_val inputs] at h
      exact List.forall₂_map_left_iff.1 h
  rw [topDown, Except.bind_eq_ok]
  constructor
  · rintro ⟨first, hfirst, h⟩
    obtain ⟨below, hbelow, h⟩ := Except.bind_eq_ok.1 h
    cases h
    exact ⟨first, hfirst, below, hinputs.1 hbelow, rfl⟩
  · rintro ⟨first, hfirst, below, hbelow, rfl⟩
    exact ⟨first, hfirst, Except.bind_eq_ok.2 ⟨below, hinputs.2 hbelow, rfl⟩⟩

/-- What a pass towards the root comes to: passes over the inputs and then a step. -/
theorem bottomUp_node_eq_ok {group : GroupId} {op : Operator} {inputs : List PhysicalPlan} :
    bottomUp scope rules (.node group op inputs) = .ok w ↔ ∃ below : List Rewritten,
      List.Forall₂ (fun c v => bottomUp scope rules c = .ok v) inputs below ∧
      ∃ last, step scope (.node group op (below.map plan)) rules = .ok last ∧
        w = ⟨last.1.plan, below.flatMap fired ++ last.1.fired⟩ := by
  rw [bottomUp, PlanTree.fold_node, Except.bind_eq_ok]
  constructor
  · rintro ⟨below, hbelow, h⟩
    obtain ⟨last, hlast, h⟩ := Except.bind_eq_ok.1 h
    cases h
    exact ⟨below, List.forall₂_map_left_iff.1 (Except.mapM_eq_ok.1 hbelow), last, hlast, rfl⟩
  · rintro ⟨below, hbelow, last, hlast, rfl⟩
    exact ⟨below, Except.mapM_eq_ok.2 (List.forall₂_map_left_iff.2 hbelow),
      Except.bind_eq_ok.2 ⟨last, hlast, rfl⟩⟩

theorem topDown_fires (h : topDown scope rules t = .ok w) :
    FiresMany scope rules t w.plan := by
  induction hn : t.weight using Nat.strongRecOn generalizing t w with
  | ind n ih =>
    obtain ⟨⟨⟨⟨group, op, inputs⟩, fired⟩, hlighter⟩, hfirst, below, hbelow, rfl⟩ :=
      topDown_eq_ok.1 h
    have hinputs : List.Forall₂ (FiresMany scope rules) inputs (below.map plan) :=
      List.forall₂_map_right_iff.2 ((forall₂_mem hbelow).imp fun c v hv =>
        ih (PhysicalPlan.weight c) (hn ▸ hlighter c hv.1) hv.2 rfl)
    exact (step_fires hfirst).trans (Fires.inputs group op [] hinputs)

theorem bottomUp_fires (h : bottomUp scope rules t = .ok w) :
    FiresMany scope rules t w.plan := by
  induction t using PlanTree.induct generalizing w with
  | node group op inputs ih =>
    obtain ⟨below, hbelow, last, hlast, rfl⟩ := bottomUp_node_eq_ok.1 h
    have hinputs : List.Forall₂ (FiresMany scope rules) inputs (below.map plan) :=
      List.forall₂_map_right_iff.2 ((forall₂_mem hbelow).imp fun c v hv => ih c hv.1 hv.2)
    exact (Fires.inputs group op [] hinputs).trans (step_fires hlast)

theorem pass_fires (h : pass scope rules t = .ok w) : FiresMany scope rules t w.plan := by
  unfold pass at h
  split at h
  · exact topDown_fires h
  · exact bottomUp_fires h

end Rewritten

namespace RewriteOutcome

variable {scope : RewriteScope} {rules : List Rule} {made left : Nat} {w next : Rewritten}
  {out : RewriteOutcome}

theorem proceed_succ (h : Rewritten.pass scope rules w.plan = .ok next) :
    proceed scope rules made w (left + 1) =
      if next.fired.isEmpty then pure ⟨next.plan, made + 1, w.fired⟩
      else proceed scope rules (made + 1) ⟨next.plan, w.fired ++ next.fired⟩ left := by
  rw [proceed, h]
  rfl

theorem proceed_fires (h : proceed scope rules made w left = pure out) :
    FiresMany scope rules w.plan out.plan := by
  induction left generalizing made w with
  | zero => cases h
  | succ left ih =>
    cases hpass : Rewritten.pass scope rules w.plan with
    | error crash =>
      rw [proceed, hpass] at h
      cases h
    | ok next =>
      have hnext := Rewritten.pass_fires hpass
      rw [proceed_succ hpass] at h
      split at h
      · cases h
        exact hnext
      · exact hnext.trans (ih (w := ⟨next.plan, w.fired ++ next.fired⟩) h)

end RewriteOutcome

/-! ## Passes over measurable tables -/

section

variable {scope : RewriteScope} {t : PhysicalPlan}

theorem Rule.kept_measured : Kept scope (Operator.Measured scope.store) where
  count _ := trivial
  lookUp hscan _ _ _ := hscan
  fetch hscan _ := hscan
  select _ := trivial
  fuse _ _ _ := trivial
  spill _ _ := trivial
  vectorise _ _ := trivial

theorem Rule.cheapest_ok (present : Cost) {candidates : List PhysicalPlan}
    (h : ∀ u ∈ candidates, ∃ c, u.totalCost scope.store scope.bindings = .ok c)
    (best : Option (Binary32 × PhysicalPlan)) :
    ∃ result, cheapest scope present best candidates = .ok result := by
  induction candidates generalizing best with
  | nil => exact ⟨_, rfl⟩
  | cons u rest ih =>
    obtain ⟨c, hc⟩ := h u List.mem_cons_self
    have hrest := ih fun v hv => h v (List.mem_cons_of_mem _ hv)
    unfold cheapest
    simp only [hc, bind, Except.bind]
    split
    · split
      · exact hrest _
      · exact hrest _
    · exact hrest _

/-- No rule crashes at a plan over measurable tables. -/
theorem Rule.apply_ok (r : Rule) (ht : t.Every (Operator.Measured scope.store)) :
    ∃ found, r.apply scope t = .ok found := by
  cases r with
  | countPushdown => exact ⟨_, rfl⟩
  | limitingSortMerge => exact ⟨_, rfl⟩
  | functionVectorisation => exact ⟨_, rfl⟩
  | externalSort =>
    rw [apply]
    unfold spillSort
    split
    · rename_i group order input others
      obtain ⟨n, hn⟩ := PhysicalPlan.rows_ok scope.bindings
        ((PhysicalPlan.every_node.1 ht).2 input List.mem_cons_self)
      rw [hn]
      simp only [bind, Except.bind]
      split
      · exact ⟨_, rfl⟩
      · exact ⟨_, rfl⟩
    · exact ⟨_, rfl⟩
  | booleanIndexScan =>
    rw [apply]
    unfold useIndex
    split
    · rename_i group p g h cs i below
      split
      · exact ⟨_, rfl⟩
      · obtain ⟨present, hpresent⟩ := PhysicalPlan.totalCost_ok scope.bindings ht
        have hinputs := (PhysicalPlan.every_node.1 ht).2
        have hscan := (PhysicalPlan.every_node.1 (hinputs _ (List.mem_singleton_self _))).1
        have hcandidates : ∀ u ∈ ((h.indexes scope.store).filter fun x =>
            (scope.store.index x).canProcess p).map (indexPlan group h cs p),
            ∃ c, u.totalCost scope.store scope.bindings = .ok c := by
          intro u hu
          obtain ⟨x, _, rfl⟩ := List.mem_map.1 hu
          exact PhysicalPlan.totalCost_ok scope.bindings
            (every_indexPlan (P := Operator.Measured scope.store) hscan (fun _ _ => hscan) trivial group)
        obtain ⟨best, hbest⟩ := cheapest_ok present hcandidates none
        rw [hpresent]
        simp only [bind, Except.bind, hbest]
        exact ⟨_, rfl⟩
    · exact ⟨_, rfl⟩

namespace Rewritten

variable (rules : List Rule)

theorem step_ok (ht : t.Every (Operator.Measured scope.store)) :
    ∃ w, step scope t rules = .ok w := by
  induction rules with
  | nil => exact ⟨_, rfl⟩
  | cons r rest ih =>
    obtain ⟨found, hfound⟩ := r.apply_ok ht
    unfold step
    split
    · rename_i e he
      rw [hfound] at he
      cases he
    · exact ⟨_, rfl⟩
    · exact ih

theorem topDown_ok (ht : t.Every (Operator.Measured scope.store)) :
    ∃ w, topDown scope rules t = .ok w := by
  induction hn : t.weight using Nat.strongRecOn generalizing t with
  | ind n ih =>
    obtain ⟨⟨⟨⟨group, op, inputs⟩, fired⟩, hlighter⟩, hfirst⟩ := step_ok rules ht
    have hinputs := (PhysicalPlan.every_node.1
      (Fires.every_of_many Rule.kept_measured (step_fires hfirst) ht)).2
    obtain ⟨below, hbelow⟩ := exists_forall₂ fun c hc =>
      ih (PhysicalPlan.weight c) (hn ▸ hlighter c hc) (hinputs c hc) rfl
    exact ⟨_, topDown_eq_ok.2 ⟨_, hfirst, below, hbelow, rfl⟩⟩

theorem bottomUp_ok (ht : t.Every (Operator.Measured scope.store)) :
    ∃ w, bottomUp scope rules t = .ok w := by
  induction t using PlanTree.induct with
  | node group op inputs ih =>
    obtain ⟨hop, hinputs⟩ := PhysicalPlan.every_node.1 ht
    obtain ⟨below, hbelow⟩ := exists_forall₂ fun c hc => ih c hc (hinputs c hc)
    have hnode : PhysicalPlan.Every (Operator.Measured scope.store)
        (.node group op (below.map plan)) := by
      refine PhysicalPlan.every_node.2 ⟨hop, List.forall_mem_map.2 fun v hv => ?_⟩
      obtain ⟨c, hc, hpass⟩ := exists_mem_of_forall₂ hbelow hv
      exact Fires.every_of_many Rule.kept_measured (bottomUp_fires hpass) (hinputs c hc)
    obtain ⟨last, hlast⟩ := step_ok rules hnode
    exact ⟨_, bottomUp_node_eq_ok.2 ⟨below, hbelow, last, hlast, rfl⟩⟩

theorem pass_ok (ht : t.Every (Operator.Measured scope.store)) :
    ∃ w, pass scope rules t = .ok w := by
  unfold pass
  split
  · exact topDown_ok rules ht
  · exact bottomUp_ok rules ht

end Rewritten

end

end QueryEngine
