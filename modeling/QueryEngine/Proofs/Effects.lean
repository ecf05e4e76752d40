import QueryEngine.Proofs.Conduct
import QueryEngine.Proofs.Views

/-!
# What pulling a stream binds

Pulling a stream may do anything to the tables and the counters of a run. Of the results of
sub-queries it changes only those of the groups that are bound below it.
-/

set_option autoImplicit false

namespace QueryEngine

/-- Whether a later state has the same results of all sub-queries but some. -/
def RunState.Rebound (own : Groups) (s s' : RunState) : Prop :=
  ∀ g, ¬ own g → s'.bindings.subquery? g = s.bindings.subquery? g

namespace RunState.Rebound

variable {own own' : Groups} {s s' s'' : RunState}

theorem refl (own : Groups) (s : RunState) : s.Rebound own s := fun _ _ => rfl

theorem trans (h : s.Rebound own s') (h' : s'.Rebound own s'') : s.Rebound own s'' :=
  fun g hg => (h' g hg).trans (h g hg)

theorem mono (hsub : ∀ g, own g → own' g) (h : s.Rebound own s') : s.Rebound own' s' :=
  fun g hg => h g fun hown => hg (hsub g hown)

theorem of_bindings (h : s'.bindings = s.bindings) : s.Rebound own s' :=
  fun g _ => congrArg (·.subquery? g) h

theorem setSubquery {g : GroupId} (hg : own g) (s : RunState) (vs : List Value) :
    s.Rebound own { s with bindings := s.bindings.setSubquery g vs } := by
  intro h hh
  apply Bindings.subquery?_setSubquery_of_ne
  rintro rfl
  exact hh hg

end RunState.Rebound

mutual

/-- Whether a stream binds no groups but its own when it is pulled, and gives tuples with the
property `P`. -/
def TupleStream.Keeps (own : Groups) (P : Tuple → Prop) : TupleStream → Prop
  | .ended => True
  | .of pull => ∀ s, Reply.Keeps own P (pull s) s

/-- The same of a reply to a pull in a state. -/
def Reply.Keeps (own : Groups) (P : Tuple → Prop) : Reply → RunState → Prop
  | .row u s' rest, s => P u ∧ s.Rebound own s' ∧ TupleStream.Keeps own P rest
  | .finished s' rest, s => s.Rebound own s' ∧ TupleStream.Keeps own P rest
  | .failed _ s', s => s.Rebound own s'
  | .crashed _ s' _, s => s.Rebound own s'

end

/-- The contract to bind the results of some sub-queries and no others. -/
def Contract.rebinding (own : Groups) : Contract where
  leads := RunState.Rebound own
  allows _ _ := True
  lasting := False
  trans := RunState.Rebound.trans
  of_bindings := RunState.Rebound.of_bindings
  earlier _ _ := trivial
  others _ := trivial

variable {own own' : Groups} {P Q : Tuple → Prop} {s s' : RunState} {t : TupleStream}

namespace Contract

theorem rebinding_covers (op : Operator) : (rebinding own).Covers P op :=
  .of_allows (fun _ _ => trivial) P op

theorem rebinding_binds {g : GroupId} (hg : own g) : (rebinding own).Binds g :=
  fun s vs => .setSubquery hg s vs

end Contract

namespace TupleStream

theorem keeps_iff : t.Keeps own P ↔ t.Meets (.rebinding own) P := by
  induction t using inductRests with
  | ended => exact Iff.rfl
  | of pull ih =>
    refine forall_congr' fun s => ?_
    have rests := ih s
    generalize pull s = r at rests
    cases r with
    | row u s' rest => exact and_congr_right fun _ => and_congr_right fun _ => rests rest rfl
    | finished s' rest => exact and_congr_right fun _ => rests rest rfl
    | failed e s' => exact (and_iff_right trivial).symm
    | crashed c s' rest => exact (and_iff_left fun h => nomatch h).symm

namespace Keeps

theorem pull (h : t.Keeps own P) (s : RunState) : (t.pull s).Keeps own P s := by
  cases t with
  | ended => exact ⟨.refl own s, trivial⟩
  | of pull => exact h s

theorem mono (hown : ∀ g, own g → own' g) (hPQ : ∀ u, P u → Q u) (t : TupleStream) :
    t.Keeps own P → t.Keeps own' Q := by
  induction t using inductRests with
  | ended => exact id
  | of pull ih =>
    intro h s
    have hs := h s
    have rests := ih s
    generalize pull s = r at hs rests
    cases r with
    | row u s' rest => exact ⟨hPQ u hs.1, hs.2.1.mono hown, rests rest rfl hs.2.2⟩
    | finished s' rest => exact ⟨hs.1.mono hown, rests rest rfl hs.2⟩
    | failed e s' => exact RunState.Rebound.mono hown hs
    | crashed c s' rest => exact RunState.Rebound.mono hown hs

theorem bindSubqueries (p : Predicate) {ts : List TupleStream} (h : ∀ t ∈ ts, t.Keeps own P)
    {groups : List GroupId} (hgroups : ∀ g ∈ groups, own g) (s : RunState) :
    s.Rebound own (TupleStream.bindSubqueries p (groups.zip ts) s).state :=
  (Meets.bindSubqueries p (fun t ht => keeps_iff.1 (h t ht))
    (fun g hg => Contract.rebinding_binds (hgroups g hg)) s).leads

end Keeps

end TupleStream

/-! ## Plans -/

namespace PhysicalPlan

/-- The groups whose results change while a plan runs: those of its sub-queries. -/
def boundGroups (t : PhysicalPlan) : List GroupId :=
  t.fold fun _ op inputs below => op.readGroups (inputs.map PlanTree.group) ++ below.flatten

theorem boundGroups_node (group : GroupId) (op : Operator) (inputs : List PhysicalPlan) :
    boundGroups (.node group op inputs) =
      op.readGroups (inputs.map PlanTree.group) ++ (inputs.map boundGroups).flatten := by
  rw [boundGroups, PlanTree.fold_node]
  rfl

theorem mem_boundGroups_of_mem {group : GroupId} {op : Operator} {inputs : List PhysicalPlan}
    {t : PhysicalPlan} (ht : t ∈ inputs) {g : GroupId} (hg : g ∈ t.boundGroups) :
    g ∈ boundGroups (.node group op inputs) := by
  rw [boundGroups_node]
  exact List.mem_append_right _ (List.mem_flatten.2 ⟨_, List.mem_map_of_mem ht, hg⟩)

theorem boundGroups_subtree {t u : PhysicalPlan} (hu : u ∈ t.subtrees) :
    ∀ g ∈ u.boundGroups, g ∈ t.boundGroups :=
  forall_subtrees (p := fun u => ∀ g ∈ boundGroups u, g ∈ t.boundGroups)
    (fun _ _ _ h _ hc g hg => h g (mem_boundGroups_of_mem hc hg)) (fun _ hg => hg) u hu

/-- A stream binds no groups but those of the plan's sub-queries. -/
theorem inline_keeps {canSpill : Bool} {s : RunState} (t : PhysicalPlan) :
    ∀ {u}, t.inline canSpill s = .ok u → u.Keeps (· ∈ t.boundGroups) fun _ => True := by
  induction t using PlanTree.induct with
  | node group op inputs ih =>
    intro u hu
    rw [inline_node] at hu
    obtain ⟨us, hus, hu⟩ := Except.bind_eq_ok.1 hu
    have hall : TupleStream.Meets.All (.rebinding (· ∈ boundGroups (.node group op inputs)))
        (fun _ => True) us := by
      intro v hv
      obtain ⟨t, ht, hv⟩ := exists_mem_of_forall₂ (Except.mapM_eq_ok.1 hus) hv
      refine TupleStream.keeps_iff.1 (.mono (fun g hg => ?_) (fun _ h => h) v (ih t ht hv))
      exact mem_boundGroups_of_mem ht hg
    refine TupleStream.keeps_iff.2 (Lowering.stream_meets Lowering.anyTuple_layout
      (fun _ _ _ _ _ _ => trivial) (Contract.rebinding_covers op)
      (fun g hg => Contract.rebinding_binds ?_) ?_ hu)
    · rw [boundGroups_node]
      exact List.mem_append_left _ hg
    · cases op with
      | subselect p =>
        cases us with
        | nil => trivial
        | cons v rest => exact List.forall_mem_cons.1 hall
      | _ => exact hall

/-- Whether a stream does what a plan says: it binds the groups of the plan's sub-queries and no
others, and its tuples are laid out as the plan's columns. -/
def Describes (t : PhysicalPlan) (u : TupleStream) : Prop :=
  u.Keeps (· ∈ t.boundGroups) (Tuple.Laid t.columns)

end PhysicalPlan

namespace Lowering

open PhysicalPlan

variable {limits : RunLimits} {st st' : LoweringState}

/-- All streams that are set up for a valid plan are as the plan says. -/
theorem lower_keeps {t : PhysicalPlan} {u : TupleStream} (hvalid : t.validate = .ok ())
    (hindexes : t.IndexesFit st.run.store) (h : lower limits t st = (.ok u, st')) :
    t.Describes u ∧ st.run.Recounted st'.run := by
  have hfits (g : GroupId) (op : Operator) (inputs : List PhysicalPlan)
      (hnode : .node g op inputs ∈ t.subtrees) :
      Fits (.rebinding (· ∈ t.boundGroups)) Tuple.Laid st.run.store op inputs := by
    refine fits_of_valid hvalid hindexes hnode (Contract.rebinding_covers op) fun k hk => ?_
    apply Contract.rebinding_binds
    apply boundGroups_subtree hnode
    rw [boundGroups_node]
    exact List.mem_append_left _ hk
  obtain ⟨hmeets, hs⟩ := lower_meets Tuple.laid_layout t hfits (.refl _) h
  exact ⟨TupleStream.keeps_iff.2 hmeets, hs⟩

theorem connectAll_keeps {consumer : GroupId} {inputs : List PhysicalPlan}
    {ts : List TupleStream} (hvalid : ∀ t ∈ inputs, t.validate = .ok ())
    (hindexes : ∀ t ∈ inputs, t.IndexesFit st.run.store)
    (h : connectAll limits consumer
      ((inputs.map PlanTree.group).zip (inputs.map (lower limits))) st = (.ok ts, st')) : List.Forall₂ Describes inputs ts ∧ st.run.Recounted st'.run := by
  refine connectAll_eq_ok (fun t u group hu => ?_) (fun t ht st₁ st₂ u hs hu => ?_) (.refl _) h
  · exact TupleStream.keeps_iff.2 (.onWorker group u (TupleStream.keeps_iff.1 hu))
  · obtain ⟨p, hp⟩ := hs
    refine lower_keeps (hvalid t ht) ?_ hu
    rw [hp]
    exact hindexes t ht

end Lowering

end QueryEngine
