import QueryEngine.Proofs.Chains
import QueryEngine.Proofs.Firing
import QueryEngine.Proofs.Rewriting

/-!
# Plans that conform

A plan conforms to another one if it is valid, belongs to the same group, produces the same columns
and has the same sub-selects over inputs of the same groups. So it can stand where the other one
stood, whatever reads its columns or binds its results by their group. Rules and splits put plans
that conform in the place of others.
-/

set_option autoImplicit false

namespace QueryEngine

/-- The predicate of a sub-select with the groups of its inputs. -/
def Operator.subselects (groups : List GroupId) : Operator → List (Predicate × List GroupId)
  | subselect p => [(p, groups)]
  | _ => []

def Operator.isSubselect : Operator → Bool
  | subselect _ => true
  | _ => false

theorem Operator.subselects_eq_nil {op : Operator} (h : op.isSubselect = false)
    (groups : List GroupId) : op.subselects groups = [] := by
  cases op <;> first | rfl | cases h

namespace PhysicalPlan

/-- The sub-selects of a plan from the root on, each with the groups of its inputs. -/
def subselects (t : PhysicalPlan) : List (Predicate × List GroupId) :=
  t.subtrees.flatMap fun u => u.op.subselects (u.inputs.map PlanTree.group)

theorem subselects_node (group : GroupId) (op : Operator) (inputs : List PhysicalPlan) :
    subselects (.node group op inputs) =
      op.subselects (inputs.map PlanTree.group) ++ (inputs.map subselects).flatten := by
  unfold subselects
  rw [PlanTree.subtrees, PlanTree.fold_node, List.flatMap_cons]
  congr 1
  rw [← List.flatMap_id', List.flatMap_assoc, List.flatMap_map, List.flatMap_def]

theorem subselects_eq_nil {t : PhysicalPlan} (h : t.Every (·.isSubselect = false)) :
    t.subselects = [] :=
  List.flatMap_eq_nil_iff.2 fun u hu => Operator.subselects_eq_nil (h u hu) _

/-- Whether a plan can stand where another one stands. -/
structure Conforms (t u : PhysicalPlan) : Prop where
  valid : u.validate = .ok ()
  columns : u.columns = t.columns
  group : u.group = t.group
  subselects : u.subselects = t.subselects

namespace Conforms

variable {t u v : PhysicalPlan} {inputs inputs' : List PhysicalPlan}

theorem refl (ht : t.validate = .ok ()) : Conforms t t := ⟨ht, rfl, rfl, rfl⟩

theorem trans (h : Conforms t u) (h' : Conforms u v) : Conforms t v :=
  ⟨h'.valid, h'.columns.trans h.columns, h'.group.trans h.group,
    h'.subselects.trans h.subselects⟩

theorem map_eq {β : Type} {f : PhysicalPlan → β} (hf : ∀ t u, Conforms t u → f u = f t)
    (h : List.Forall₂ Conforms inputs inputs') : inputs'.map f = inputs.map f := by
  induction h with
  | nil => rfl
  | cons ht _ ih => rw [List.map_cons, List.map_cons, hf _ _ ht, ih]

/-- A node conforms over inputs that do. -/
theorem node {group : GroupId} {op : Operator} (ht : validate (.node group op inputs) = .ok ())
    (h : List.Forall₂ Conforms inputs inputs') :
    Conforms (.node group op inputs) (.node group op inputs') := by
  have hcolumns := map_eq (fun _ _ ht => ht.columns) h
  have hgroups := map_eq (fun _ _ ht => ht.group) h
  have hsubselects := map_eq (fun _ _ ht => ht.subselects) h
  refine ⟨validate_node.2 ⟨hcolumns ▸ (validate_node.1 ht).1, fun u hu => ?_⟩, ?_, rfl, ?_⟩
  · obtain ⟨t, _, htu⟩ := exists_mem_of_forall₂ h hu
    exact htu.valid
  · rw [columns_node, columns_node, hcolumns]
  · rw [subselects_node, subselects_node, hgroups, hsubselects]

end Conforms

end PhysicalPlan

/-! ## Firings -/

namespace Rule

open PhysicalPlan (Conforms validate_node columns_node scan_valid subselects_node)

variable {scope : RewriteScope} {t u : PhysicalPlan}

/-- A look-up by an index is valid, has the columns of the scan and belongs to the given group. -/
theorem validate_indexPlan {h : TableHandle} {cs : List Column} (hcs : ∀ c ∈ cs, c ∈ h.columns)
    (group : GroupId) (p : Predicate) (x : IndexHandle) :
    (indexPlan group h cs p x).validate = .ok () := by
  have hlookup : (lookupPlan group h p x).validate = .ok () := rfl
  have hfetch : (fetchPlan group h cs p x).validate = .ok () := by
    unfold fetchPlan
    split
    · exact hlookup
    · refine validate_node.2 ⟨Operator.check_eq_ok.2 ⟨rfl, rfl, ?_⟩,
        List.forall_mem_singleton.2 hlookup⟩
      exact Operator.checkColumns_eq_ok.2 fun c hc => hcs c (List.mem_filter.1 hc).1
  unfold indexPlan
  split
  · exact hfetch
  · refine validate_node.2 ⟨Operator.check_eq_ok.2 ⟨rfl, ?_, rfl⟩,
      List.forall_mem_singleton.2 hfetch⟩
    refine Operator.checkRequired_eq_ok.2 ?_
    rintro _ ⟨⟩ c hc
    exact mem_columns_fetchPlan hc group

theorem columns_indexPlan (group : GroupId) (h : TableHandle) (cs : List Column) (p : Predicate)
    (x : IndexHandle) : (indexPlan group h cs p x).columns = cs := by
  unfold indexPlan
  split
  · assumption
  · exact columns_node _ _ _

theorem group_indexPlan (group : GroupId) (h : TableHandle) (cs : List Column) (p : Predicate)
    (x : IndexHandle) : (indexPlan group h cs p x).group = group := by
  have hfetch : (fetchPlan group h cs p x).group = group := by
    unfold fetchPlan
    split <;> rfl
  unfold indexPlan
  split
  · exact hfetch
  · exact hfetch

theorem Sorts.laws {order : SortOrder} {op : Operator} (h : Sorts order op) :
    op.arity = .exactly 1 ∧ op.requires = order.map (·.1) ∧ (∀ input, op.columns input = input) ∧
      op.isSubselect = false := by
  cases h <;> exact ⟨rfl, rfl, fun _ => rfl, rfl⟩

theorem Replacement.conforms (h : Replacement scope t u) (ht : t.validate = .ok ()) :
    Conforms t u := by
  cases h with
  | count group g table cs i below =>
    obtain ⟨rfl, _⟩ := scan_valid ((validate_node.1 ht).2 _ (List.mem_singleton_self _))
    exact ⟨rfl, rfl, rfl, rfl⟩
  | @lookUp group g table cs i p below x hx hp =>
    obtain ⟨rfl, hcs⟩ := scan_valid ((validate_node.1 ht).2 _ (List.mem_singleton_self _))
    refine ⟨validate_indexPlan hcs group p x, ?_, group_indexPlan group table cs p x, ?_⟩
    · rw [columns_indexPlan, columns_node, List.map_singleton, columns_node]
      rfl
    · refine (PhysicalPlan.subselects_eq_nil ?_).trans rfl
      exact every_indexPlan (P := (·.isSubselect = false)) rfl (fun _ _ => rfl) rfl group
  | @fuse group g order bounds op hop inputs =>
    obtain ⟨harity, hrequires, hcolumns, hsubselect⟩ := hop.laws
    obtain ⟨hcheck, hinputs⟩ :=
      validate_node.1 ((validate_node.1 ht).2 _ (List.mem_singleton_self _))
    refine ⟨validate_node.2
      ⟨check_of_requires hcheck harity.symm hrequires.symm rfl, hinputs⟩, ?_, rfl, ?_⟩
    · rw [columns_node, columns_node]
      exact ((columns_node g op inputs).trans (hcolumns _)).symm
    · rw [subselects_node, subselects_node, List.map_singleton, List.map_singleton,
        subselects_node, Operator.subselects_eq_nil hsubselect]
      exact (List.append_nil _).symm
  | spill group order chunk input others =>
    obtain ⟨hcheck, hinputs⟩ := validate_node.1 ht
    refine ⟨validate_node.2 ⟨check_of_requires hcheck rfl rfl rfl, hinputs⟩, ?_, rfl, ?_⟩
    · rw [columns_node, columns_node]
      rfl
    · rw [subselects_node, subselects_node]
      rfl
  | @vectorise group f f' hf arguments out inputs =>
    obtain ⟨hcheck, hinputs⟩ := validate_node.1 ht
    obtain ⟨kernel, _, rfl⟩ := Option.map_eq_some_iff.1 hf
    have hdetails := (Operator.check_eq_ok.1 hcheck).2.2
    refine ⟨validate_node.2 ⟨check_of_requires hcheck rfl rfl hdetails, hinputs⟩, ?_, rfl, ?_⟩
    · rw [columns_node, columns_node]
      rfl
    · rw [subselects_node, subselects_node]
      rfl

end Rule

open PhysicalPlan (Conforms)

/-- What conforms somewhere in a plan conforms there as a whole. -/
theorem Somewhere.conforms {R : PhysicalPlan → PhysicalPlan → Prop}
    (hR : ∀ t u, R t u → t.validate = .ok () → Conforms t u) {t u : PhysicalPlan}
    (h : Somewhere R t u) (ht : t.validate = .ok ()) : Conforms t u := by
  induction h with
  | here h => exact hR _ _ h ht
  | inside group op before after _ ih =>
    have hinputs := (PhysicalPlan.validate_node.1 ht).2
    rw [List.forall_mem_append, List.forall_mem_cons] at hinputs
    obtain ⟨hbefore, hinput, hafter⟩ := hinputs
    have hsame {l : List PhysicalPlan} (hl : ∀ c ∈ l, c.validate = .ok ()) :
        List.Forall₂ Conforms l l :=
      List.forall₂_same.2 fun c hc => .refl (hl c hc)
    exact .node ht (List.rel_append (hsame hbefore) (.cons (ih hinput) (hsame hafter)))

theorem Fires.conforms {scope : RewriteScope} {rules : List Rule} {t u : PhysicalPlan}
    (h : Fires scope rules t u) (ht : t.validate = .ok ()) : Conforms t u :=
  Somewhere.conforms (fun _ _ ⟨_, _, happly⟩ ht => (Rule.replacement_of_apply happly).conforms ht)
    h ht

theorem FiresMany.conforms {scope : RewriteScope} {rules : List Rule} {t u : PhysicalPlan}
    (h : FiresMany scope rules t u) (ht : t.validate = .ok ()) : Conforms t u := by
  induction h with
  | refl => exact .refl ht
  | tail _ hfire ih => exact ih.trans (Fires.conforms hfire ih.valid)

/-! ## Splits -/

theorem Operator.check_restrict (op : Operator) (i p : Nat) (inputs : List (List Column)) :
    (op.restrict i p).check inputs = op.check inputs := by
  cases op <;> rfl

theorem Operator.isSubselect_restrict (op : Operator) (i p : Nat) :
    (op.restrict i p).isSubselect = op.isSubselect := by
  cases op <;> rfl

namespace PhysicalPlan

variable {t u : PhysicalPlan} {p : Nat} {next : GroupId}

theorem validate_part (ht : t.validate = .ok ()) (i p : Nat) (g : GroupId) :
    (t.part i p g).validate = .ok () := by
  induction t using PlanTree.induct with
  | node group op inputs ih =>
    obtain ⟨hcheck, hinputs⟩ := validate_node.1 ht
    have hcolumns : (inputs.map fun t => part t i p g).map columns = inputs.map columns := by
      rw [List.map_map]
      exact List.map_congr_left fun t _ => columns_part t i p g
    rw [part_node, validate_node, hcolumns, Operator.check_restrict]
    exact ⟨hcheck, List.forall_mem_map.2 fun t ht => ih t ht (hinputs t ht)⟩

theorem group_part (t : PhysicalPlan) (i p : Nat) (g : GroupId) : (t.part i p g).group = g := by
  obtain ⟨group, op, inputs⟩ := t
  rw [part_node]
  rfl

/-- Properties of operators that do not depend on the partition pass on to parts. -/
theorem every_part {P : Operator → Prop} (hP : ∀ {op} i p, P op → P (op.restrict i p))
    (ht : t.Every P) (i p : Nat) (g : GroupId) : (t.part i p g).Every P := by
  induction t using PlanTree.induct with
  | node group op inputs ih =>
    obtain ⟨hop, hinputs⟩ := every_node.1 ht
    rw [part_node]
    exact every_node.2 ⟨hP i p hop, List.forall_mem_map.2 fun t ht => ih t ht (hinputs t ht)⟩

/-- A chain has no operators but a scan and those that work on single tuples. -/
theorem every_chain (ht : t.validate = .ok ()) (hchain : t.isChain = true) :
    t.Every fun op => op.isWholeScan = true ∨ op.isPerTuple = true := by
  induction t, hchain using isChain_induct with
  | scan group h cs i inputs =>
    obtain ⟨rfl, _⟩ := scan_valid ht
    exact every_node.2 ⟨.inl rfl, List.forall_mem_nil _⟩
  | step group op input _ hop _ ih =>
    have hvalid := (validate_node.1 ht).2 input (List.mem_singleton_self _)
    exact every_node.2 ⟨.inr hop, List.forall_mem_singleton.2 (ih hvalid)⟩

theorem every_chain_isSubselect (ht : t.validate = .ok ()) (hchain : t.isChain = true) :
    t.Every (·.isSubselect = false) := by
  intro u hu
  rcases every_chain ht hchain u hu with hop | hop <;>
    cases hu : u.op <;> rw [hu] at hop <;> first | rfl | cases hop

/-- The ways in which a plan is split at its root. -/
theorem splitHere?_cases (h : splitHere? t p next = some u) :
    t.isChain = true ∧ u = .nary .merge (t.parts p next) ∨
      ∃ group order bounds input others, t = .node group (.limitingSort order bounds) (input :: others) ∧
        isChain input = true ∧ u = .node group (.mergeLimitingSort order bounds)
          ((parts input p next).map (.unary (.limitingSort order ⟨0, bounds.reach⟩))) := by
  unfold splitHere? at h
  split at h
  · cases h
    exact .inl ⟨‹_›, rfl⟩
  · split at h
    · rename_i order bounds input hop hinput
      split at h
      · cases h
        obtain ⟨group, op, inputs⟩ := t
        cases hop
        cases inputs with
        | nil => cases hinput
        | cons c others =>
          cases hinput
          exact .inr ⟨group, order, bounds, _, others, rfl, ‹_›, rfl⟩
      · cases h
    · cases h

theorem length_parts (t : PhysicalPlan) (p : Nat) (next : GroupId) : (t.parts p next).length = p := by
  rw [parts, List.length_map, List.length_range]

theorem forall_mem_parts {P : PhysicalPlan → Prop} (h : ∀ i g, P (t.part i p g)) :
    ∀ u ∈ t.parts p next, P u :=
  List.forall_mem_map.2 fun i _ => h i _

theorem checkAgreement_of_same {op : Operator} {inputs : List (List Column)} (cs : List Column)
    (h : ∀ input ∈ inputs, input = cs) : op.checkAgreement inputs = .ok () := by
  refine if_pos (List.all_eq_true.2 fun input hinput => decide_eq_true ?_)
  cases inputs with
  | nil => cases hinput
  | cons first rest => exact (h input hinput).trans (h first List.mem_cons_self).symm

theorem splitHere_conforms (hp : 2 ≤ p) (ht : t.validate = .ok ())
    (h : splitHere? t p next = some u) : Conforms t u := by
  have hpos : 0 < p := Nat.lt_of_lt_of_le Nat.zero_lt_two hp
  rcases splitHere?_cases h with ⟨hchain, rfl⟩ |
    ⟨group, order, bounds, input, others, rfl, hchain, rfl⟩
  · have hsubselects := every_chain_isSubselect ht hchain
    have hparts : ((t.parts p next).map columns).headD [] = t.columns := parts_columns t hpos next
    refine ⟨validate_node.2 ⟨Operator.check_eq_ok.2 ⟨?_, ?_, ?_⟩,
      forall_mem_parts fun i g => validate_part ht i p g⟩, ?_, ?_, ?_⟩
    · rw [List.length_map, length_parts]
      exact decide_eq_true hp
    · exact Operator.checkRequired_eq_ok.2 fun _ _ _ hc => nomatch hc
    · exact checkAgreement_of_same t.columns (List.forall_mem_map.2
        (forall_mem_parts fun i g => columns_part t i p g))
    · rw [PlanTree.nary, columns_node]
      exact hparts
    · obtain ⟨p, rfl⟩ := Nat.exists_eq_add_one_of_ne_zero (Nat.ne_of_gt hpos)
      rw [parts, List.range_succ_eq_map]
      exact group_part t _ _ _
    · rw [subselects_eq_nil hsubselects]
      refine subselects_eq_nil (every_node.2 ⟨rfl, forall_mem_parts fun i g => ?_⟩)
      exact every_part (fun i p hop => (Operator.isSubselect_restrict _ i p).trans hop)
        hsubselects i p g
  · obtain ⟨hcheck, hinputs⟩ := validate_node.1 ht
    have hvalid := hinputs input List.mem_cons_self
    obtain ⟨harity, hrequired, _⟩ := Operator.check_eq_ok.1 hcheck
    obtain rfl : others = [] := by
      have hone : (input :: others).length = 1 := by
        simpa [Arity.admits, Operator.arity, Operator.shape] using harity
      exact List.eq_nil_of_length_eq_zero (Nat.succ.inj hone)
    have hsort : ∀ c ∈ order.map (·.1), c ∈ columns input :=
      Operator.checkRequired_eq_ok.1 hrequired _ rfl
    have hsubselects := every_chain_isSubselect hvalid hchain
    have hcolumns : ((parts input p next).map (.unary (.limitingSort order ⟨0, bounds.reach⟩))).map
        columns = (parts input p next).map columns := by
      rw [List.map_map]
      exact List.map_congr_left fun c _ => columns_unary _ c
    have hrequires : Operator.checkRequired (.mergeLimitingSort order bounds)
        ((parts input p next).map columns) = .ok () := by
      refine Operator.checkRequired_eq_ok.2 fun cs hcs c hc => ?_
      have hhead := parts_columns input hpos next
      rw [List.headD_eq_head?_getD, Option.mem_def.1 hcs] at hhead
      have hsame : cs = columns input := hhead
      rw [hsame]
      exact hsort c hc
    refine ⟨validate_node.2 ⟨?_, ?_⟩, ?_, rfl, ?_⟩
    · rw [hcolumns]
      refine Operator.check_eq_ok.2 ⟨?_, hrequires, ?_⟩
      · rw [List.length_map, length_parts]
        exact decide_eq_true hp
      · exact checkAgreement_of_same (columns input) (List.forall_mem_map.2
          (forall_mem_parts fun i g => columns_part input i p g))
    · refine List.forall_mem_map.2 (forall_mem_parts fun i g => validate_node.2
        ⟨Operator.check_eq_ok.2 ⟨rfl, Operator.checkRequired_eq_ok.2 ?_, rfl⟩,
          List.forall_mem_singleton.2 (validate_part hvalid i p g)⟩)
      rintro _ ⟨⟩ c hc
      rw [columns_part]
      exact hsort c hc
    · rw [columns_node, columns_node, hcolumns]
      exact parts_columns input hpos next
    · rw [subselects_eq_nil (every_node.2 ⟨rfl, List.forall_mem_singleton.2 hsubselects⟩)]
      refine subselects_eq_nil (every_node.2 ⟨rfl, List.forall_mem_map.2
        (forall_mem_parts fun i g => every_node.2 ⟨rfl, List.forall_mem_singleton.2 ?_⟩)⟩)
      exact every_part (fun i p hop => (Operator.isSubselect_restrict _ i p).trans hop)
        hsubselects i p g

mutual

theorem somewhere_of_splitFirst : ∀ {t u : PhysicalPlan}, splitFirst? p next t = some u →
    Somewhere (fun t u => splitHere? t p next = some u) t u
  | .node group op inputs, u, h => by
    rw [splitFirst?] at h
    split at h
    · rename_i v hv
      cases h
      exact .here hv
    · obtain ⟨inputs', hinputs, rfl⟩ := Option.map_eq_some_iff.1 h
      obtain ⟨before, t, v, after, rfl, rfl, hsplit⟩ := somewhere_of_splitAmong hinputs
      exact .inside group op before after hsplit

theorem somewhere_of_splitAmong : ∀ {inputs inputs' : List PhysicalPlan},
    splitAmong? p next inputs = some inputs' → ∃ before t u after,
      inputs = before ++ t :: after ∧ inputs' = before ++ u :: after ∧
        Somewhere (fun t u => splitHere? t p next = some u) t u
  | [], _, h => nomatch h
  | t :: rest, inputs', h => by
    rw [splitAmong?] at h
    split at h
    · rename_i u hu
      cases h
      exact ⟨[], t, u, rest, rfl, rfl, somewhere_of_splitFirst hu⟩
    · obtain ⟨rest', hrest, rfl⟩ := Option.map_eq_some_iff.1 h
      obtain ⟨before, c, v, after, rfl, rfl, hsplit⟩ := somewhere_of_splitAmong hrest
      exact ⟨t :: before, c, v, after, rfl, rfl, hsplit⟩

end

/-- A plan that is split is so at one place, into two parts at least. -/
theorem somewhere_of_tryPartition {next' : GroupId} (h : t.tryPartition p next = some (u, next')) :
    2 ≤ p ∧ Somewhere (fun t u => splitHere? t p next = some u) t u := by
  unfold tryPartition at h
  split at h
  · cases h
  · rename_i hp
    obtain ⟨v, hv, he⟩ := Option.map_eq_some_iff.1 h
    cases he
    exact ⟨Nat.le_of_not_lt hp, somewhere_of_splitFirst hv⟩

/-- A property of operators that the operators of split plans have. -/
structure SplitKept (P : Operator → Prop) : Prop where
  restrict : ∀ {op} i p, P op → P (op.restrict i p)
  merge : P .merge
  limitingSort : ∀ {order bounds} (bounds'), P (.limitingSort order bounds) →
    P (.limitingSort order bounds')
  mergeLimitingSort : ∀ {order bounds}, P (.limitingSort order bounds) →
    P (.mergeLimitingSort order bounds)

theorem every_splitHere {P : Operator → Prop} (hP : SplitKept P) (ht : t.Every P)
    (h : splitHere? t p next = some u) : u.Every P := by
  rcases splitHere?_cases h with ⟨_, rfl⟩ | ⟨group, order, bounds, input, others, rfl, _, rfl⟩
  · exact every_node.2 ⟨hP.merge, forall_mem_parts fun i g => every_part hP.restrict ht i p g⟩
  · obtain ⟨hsort, hinputs⟩ := every_node.1 ht
    have hinput := hinputs input List.mem_cons_self
    refine every_node.2 ⟨hP.mergeLimitingSort hsort, List.forall_mem_map.2 ?_⟩
    exact forall_mem_parts fun i g => every_node.2 ⟨hP.limitingSort _ hsort,
      List.forall_mem_singleton.2 (every_part hP.restrict hinput i p g)⟩

theorem every_tryPartition {P : Operator → Prop} (hP : SplitKept P) {next' : GroupId}
    (ht : t.Every P) (h : t.tryPartition p next = some (u, next')) : u.Every P :=
  Somewhere.every (fun _ _ hsplit ht => every_splitHere hP ht hsplit)
    (somewhere_of_tryPartition h).2 ht

theorem tryPartition_conforms {next' : GroupId} (ht : t.validate = .ok ())
    (h : t.tryPartition p next = some (u, next')) : Conforms t u := by
  obtain ⟨hp, hsplit⟩ := somewhere_of_tryPartition h
  exact Somewhere.conforms (fun _ _ hsplit ht => splitHere_conforms hp ht hsplit) hsplit ht

end PhysicalPlan

end QueryEngine
