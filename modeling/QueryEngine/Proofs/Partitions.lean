import QueryEngine.Function.Touchy
import QueryEngine.Proofs.Conforming

/-!
# Partitioned plans

Splitting a plan replaces one chain by the merge of its parts. The parts give the rows of the chain in
another order. A plan comes to the same rows of values where no operator above and beside the chain
cares about the order.
-/

set_option autoImplicit false

namespace QueryEngine

/-! ## Plans that do not care about the order -/

namespace Operator

/-- Whether an operator gives the same rows of values for tuples in any order. -/
def ignoresOrder : Operator → Bool
  | scan .. => true
  | filter _ => true
  | subselect _ => true
  | function .. => true
  | fetch .. => true
  | projection p => p.ignoresOrder
  | sort _ => true
  | externalSort .. => true
  | union _ => true
  | intersect => true
  | _ => false

/-- Whether an operator picks a value of its input. -/
def isExtremum : Operator → Bool
  | projection p => p.isExtremum
  | _ => false

/-- Whether an operator keeps one of several rows with the same values, and thereby its number. -/
def picksRows : Operator → Bool
  | union distinct => distinct
  | intersect => true
  | _ => false

end Operator

namespace PhysicalPlan

/-- The inputs that are read as sub-queries. -/
def subqueries (t : PhysicalPlan) : List PhysicalPlan :=
  match t.op with
  | .subselect _ => t.inputs.tail
  | _ => []

/-- Whether a plan keeps all rows with the same values. -/
def KeepsRows (t : PhysicalPlan) : Prop := ∀ u ∈ t.subtrees, u.op.picksRows = false

/-- Whether no operator of a plan cares about the order of its input. Sub-queries are read as entries
of lists only, and rows are not read by number above operators that pick one of several rows. -/
structure Unordered (t : PhysicalPlan) : Prop where
  ignores : ∀ u ∈ t.subtrees, u.op.ignoresOrder = true
  listing : ∀ u ∈ t.subtrees, u.op.isListing = true
  numbered : ∀ u ∈ t.subtrees, u.op.isFetch = true → KeepsRows u

/-- Whether the order in which tables are read matters nowhere in a plan. No sub-query reads or binds
its own results while it is read. Below a least or greatest value, functions give nulls and values of
the types of their columns. -/
structure OrderFree (slots : List (Option Value)) (t : PhysicalPlan) : Prop extends Unordered t where
  own : ∀ u ∈ t.subtrees, ∀ q ∈ subqueries u, q.group ∉ readings q ∧ q.group ∉ boundGroups q
  typed : ∀ u ∈ t.subtrees, u.op.isExtremum = true → Typed slots u

section

variable {slots : List (Option Value)} {group : GroupId} {op : Operator}
  {inputs : List PhysicalPlan} {t : PhysicalPlan}

theorem OrderFree.input (h : OrderFree slots (.node group op inputs)) (ht : t ∈ inputs) :
    t.OrderFree slots := by
  have hbelow : ∀ u ∈ t.subtrees, u ∈ PlanTree.subtrees (.node group op inputs) :=
    fun u hu => mem_subtrees_of_mem ht hu
  exact
    { ignores := fun u hu => h.ignores u (hbelow u hu)
      listing := fun u hu => h.listing u (hbelow u hu)
      numbered := fun u hu => h.numbered u (hbelow u hu)
      own := fun u hu => h.own u (hbelow u hu)
      typed := fun u hu => h.typed u (hbelow u hu) }

end

/-! ## Split plans -/

/-- Whether a plan is another one, in one place of which a chain may have been split. -/
def Splits (p : Nat) (next : GroupId) (t t' : PhysicalPlan) : Prop :=
  t' = t ∨ splitFirst? p next t = some t'

section

variable {p : Nat} {next : GroupId} {group : GroupId} {op : Operator}
  {inputs inputs' : List PhysicalPlan} {t t' : PhysicalPlan}

theorem splitAmong?_eq_some (h : splitAmong? p next inputs = some inputs') :
    List.Forall₂ (Splits p next) inputs inputs' := by
  induction inputs generalizing inputs' with
  | nil => cases h
  | cons t rest ih =>
    rw [splitAmong?] at h
    cases hfirst : splitFirst? p next t with
    | some u =>
      rw [hfirst] at h
      cases h
      exact .cons (.inr hfirst) (List.forall₂_same.2 fun _ _ => .inl rfl)
    | none =>
      rw [hfirst] at h
      obtain ⟨rest', hrest, rfl⟩ := Option.map_eq_some_iff.1 h
      exact .cons (.inl rfl) (ih hrest)

/-- A chain is split, or the inputs of a node are. -/
theorem splits_cases (hop : op.ignoresOrder = true) (h : Splits p next (.node group op inputs) t') :
    isChain (.node group op inputs) = true ∧
        t' = .nary .merge (parts (.node group op inputs) p next) ∨
      ∃ inputs', t' = .node group op inputs' ∧ List.Forall₂ (Splits p next) inputs inputs' := by
  rcases h with rfl | h
  · exact .inr ⟨inputs, rfl, List.forall₂_same.2 fun _ _ => .inl rfl⟩
  · rw [splitFirst?] at h
    cases hchain : isChain (.node group op inputs) with
    | true =>
      rw [splitHere?, hchain, if_pos rfl] at h
      cases h
      exact .inl ⟨rfl, rfl⟩
    | false =>
      have hnone : splitHere? (.node group op inputs) p next = none := by
        rw [splitHere?, hchain, if_neg Bool.false_ne_true]
        cases op <;> first | rfl | cases hop
      rw [hnone] at h
      obtain ⟨inputs', hinputs, rfl⟩ := Option.map_eq_some_iff.1 h
      exact .inr ⟨inputs', rfl, splitAmong?_eq_some hinputs⟩

/-- Whether two plans are the same as inputs of a node. -/
structure SameShape (t t' : PhysicalPlan) : Prop where
  group : t'.group = t.group
  columns : t'.columns = t.columns
  boundGroups : t'.boundGroups = t.boundGroups

theorem SameShape.map_eq {β : Type} {f : PhysicalPlan → β} (hf : ∀ t t', SameShape t t' → f t' = f t)
    (h : List.Forall₂ SameShape inputs inputs') : inputs'.map f = inputs.map f := by
  induction h with
  | nil => rfl
  | cons ht _ ih => rw [List.map_cons, List.map_cons, hf _ _ ht, ih]

theorem sameShape_node (group : GroupId) (op : Operator) (h : List.Forall₂ SameShape inputs inputs') :
    SameShape (.node group op inputs) (.node group op inputs') where
  group := rfl
  columns := by
    rw [columns_node, columns_node, SameShape.map_eq (fun _ _ ht => ht.columns) h]
  boundGroups := by
    rw [boundGroups_node, boundGroups_node, SameShape.map_eq (fun _ _ ht => ht.group) h,
      SameShape.map_eq (fun _ _ ht => ht.boundGroups) h]

/-- Chains have no sub-queries, and neither have their parts. -/
theorem boundGroups_chain (t : PhysicalPlan) (hvalid : t.validate = .ok ()) (ht : t.isChain = true) :
    t.boundGroups = [] ∧ ∀ i p g, boundGroups (part t i p g) = [] := by
  induction t, ht using isChain_induct with
  | scan group h cs i inputs =>
    obtain ⟨rfl, _⟩ := scan_valid hvalid
    exact ⟨rfl, fun _ _ _ => rfl⟩
  | step group op input _ hop _ ih =>
    obtain ⟨hbound, hparts⟩ := ih ((validate_node.1 hvalid).2 input (List.mem_singleton_self input))
    constructor
    · rw [boundGroups_node, Operator.readGroups_of_isPerTuple hop, List.map_singleton, hbound]
      rfl
    · intro i p g
      rw [part_step hop, boundGroups_node, Operator.readGroups_of_isPerTuple hop,
        List.map_singleton, hparts]
      rfl

theorem Splits.sameShape (hp : 0 < p) (t : PhysicalPlan) : ∀ {t'}, t.validate = .ok () →
    (∀ u ∈ t.subtrees, u.op.ignoresOrder = true) → Splits p next t t' → SameShape t t' := by
  induction t using PlanTree.induct with
  | node group op inputs ih =>
    intro t' hvalid hops h
    have hop : op.ignoresOrder = true := hops _ (mem_subtrees_self _)
    rcases splits_cases hop h with ⟨hchain, rfl⟩ | ⟨inputs', rfl, hinputs⟩
    · have hbound := boundGroups_chain _ hvalid hchain
      refine ⟨?_, ?_, ?_⟩
      · obtain ⟨p, rfl⟩ := Nat.exists_eq_add_one_of_ne_zero (Nat.ne_of_gt hp)
        rw [parts, List.range_succ_eq_map]
        rfl
      · rw [PlanTree.nary, columns_node]
        exact parts_columns _ hp next
      · have hnone : (parts (.node group op inputs) p next).map boundGroups =
            (List.range p).map fun _ => [] := by
          rw [parts, List.map_map]
          exact List.map_congr_left fun i _ => hbound.2 i p _
        rw [PlanTree.nary, boundGroups_node, hbound.1, hnone]
        change List.flatten _ = []
        exact List.flatten_eq_nil_iff.2 (List.forall_mem_map.2 fun _ _ => rfl)
    · have hvalid := (validate_node.1 hvalid).2
      refine sameShape_node group op (List.forall₂_iff_zip.2 ⟨hinputs.length_eq, ?_⟩)
      intro t t' ht
      have hmem := (List.of_mem_zip ht).1
      exact ih t hmem (hvalid t hmem) (fun u hu => hops u (mem_subtrees_of_mem hmem hu))
        ((List.forall₂_iff_zip.1 hinputs).2 ht)

end

end PhysicalPlan

/-! ## Streams of split plans -/

/-- The frame of a state in which the results of some sub-queries are hidden. -/
def RunState.frame (s : RunState) (hidden : List GroupId) : Frame :=
  ⟨s.store.unread, s.bindings.slots, hidden⟩

namespace Operator

variable {op : Operator} {c : Frame} {n strict : Bool} {input : List Column} {s : RunState}

/-- An operator with one input makes twins of twins. -/
theorem twin_single (harity : op.arity = .exactly 1) (hop : op.ignoresOrder = true)
    (hlisting : op.isListing = true) (hshown : ∀ g ∈ op.readings, g ∉ c.hidden)
    (htables : ∀ m, (c.store.table m).Sound) (hn : op.isFetch = true → n = true)
    (hextremum : op.isExtremum = true → strict = true)
    (htyped : strict = true → op.Typed c.slots input) {limits : RunLimits}
    {groups : List GroupId} {t t' u u' : TupleStream} (h : t.Twin c n (Tuple.Fits strict input) t')
    (hu : Lowering.stream limits s op (op.columns input) groups [t] = .ok u)
    (hu' : Lowering.stream limits s op (op.columns input) groups [t'] = .ok u') :
    u.Twin c n (Tuple.Fits strict (op.columns input)) u' := by
  by_cases hper : op.isPerTuple = true
  · intro e
    obtain ⟨L, e', hL, ht, ht'⟩ := h e
    refine ⟨Trace.choose (op.change c input) L, e', fun y hy => ?_,
      change_draws hper hlisting hshown hn hu ht, change_draws hper hlisting hshown hn hu' ht'⟩
    obtain ⟨v, hv, hy⟩ := Trace.mem_choose.1 hy
    exact change_fits htables htyped (hL (y.1, v) hv) hy
  · cases op with
    | projection p =>
      cases hu
      cases hu'
      exact h.project hop hextremum
    | sort order =>
      cases hu
      cases hu'
      exact h.sort order
    | externalSort order chunk =>
      cases hu
      cases hu'
      exact h.externalSort order chunk _ fun _ hv => hv.laid
    | filter p => exact absurd rfl hper
    | function f arguments out => exact absurd rfl hper
    | fetch h wanted => exact absurd rfl hper
    | scan h cs i n => cases harity
    | subselect p => cases harity
    | union distinct => cases harity
    | intersect => cases harity
    | _ => cases hop

end Operator

namespace PhysicalPlan

/-- What makes a plan within a larger one draw the same traces as a split one: rows may be told apart
by their numbers, values may have to fit their columns, and the results of some sub-queries may be
hidden. -/
structure Suited (s : RunState) (hidden : List GroupId) (n strict : Bool) (t : PhysicalPlan) :
    Prop where
  valid : t.validate = .ok ()
  free : t.OrderFree s.bindings.slots
  typed : strict = true → t.Typed s.bindings.slots
  numbered : n = true → t.KeepsRows
  shown : ∀ g ∈ hidden, g ∉ t.readings ∧ g ∉ t.boundGroups

section

variable {s : RunState} {hidden : List GroupId} {n strict : Bool} {group : GroupId} {op : Operator}
  {inputs : List PhysicalPlan} {t : PhysicalPlan}

theorem Suited.input (h : Suited s hidden n strict (.node group op inputs)) (ht : t ∈ inputs) :
    t.Suited s hidden n strict := by
  have hbelow : ∀ u ∈ t.subtrees, u ∈ PlanTree.subtrees (.node group op inputs) :=
    fun u hu => mem_subtrees_of_mem ht hu
  refine
    { valid := (validate_node.1 h.valid).2 t ht
      free := h.free.input ht
      typed := fun hstrict u hu => h.typed hstrict u (hbelow u hu)
      numbered := fun hn u hu => h.numbered hn u (hbelow u hu)
      shown := fun g hg => ⟨fun hmem => (h.shown g hg).1 ?_, fun hmem => (h.shown g hg).2 ?_⟩ }
  · rw [readings_node]
    exact List.mem_append_right _ (List.mem_flatten.2 ⟨_, List.mem_map_of_mem ht, hmem⟩)
  · exact mem_boundGroups_of_mem ht hmem

/-- Where rows are read by their numbers, or a least or greatest value is asked for, the input has to
bear it. -/
theorem Suited.only (h : Suited s hidden n strict (.node group op [t])) :
    t.Suited s hidden (n || op.isFetch) (strict || op.isExtremum) := by
  have ht := h.input (List.mem_singleton_self t)
  have hself := mem_subtrees_self (.node group op [t])
  have hbelow : ∀ u ∈ t.subtrees, u ∈ PlanTree.subtrees (.node group op [t]) :=
    fun u hu => mem_subtrees_of_mem (List.mem_singleton_self t) hu
  refine ⟨ht.valid, ht.free, fun hstrict => ?_, fun hn => ?_, ht.shown⟩
  · rcases Bool.or_eq_true_iff.1 hstrict with hstrict | hop
    · exact ht.typed hstrict
    · exact fun u hu => h.free.typed _ hself hop u (hbelow u hu)
  · rcases Bool.or_eq_true_iff.1 hn with hn | hop
    · exact ht.numbered hn
    · exact fun u hu => h.free.numbered _ hself hop u (hbelow u hu)

/-- A sub-query is read while its own results are hidden. -/
theorem Suited.subquery {p : Predicate} {subs : List PhysicalPlan}
    (h : Suited s hidden n strict (.node group (.subselect p) (t :: subs))) {q : PhysicalPlan}
    (hq : q ∈ subs) :
    q.group ∉ hidden ∧ q.group ∉ q.boundGroups ∧ q.Suited s (q.group :: hidden) false false := by
  have hmem : q ∈ t :: subs := List.mem_cons_of_mem _ hq
  have hq' := h.input hmem
  have hbound : q.group ∈ boundGroups (.node group (.subselect p) (t :: subs)) := by
    rw [boundGroups_node]
    exact List.mem_append_left _ (List.mem_map_of_mem hq)
  have hown := h.free.own _ (mem_subtrees_self _) q hq
  exact ⟨fun hg => (h.shown _ hg).2 hbound, hown.2, hq'.valid, hq'.free, fun hn => (nomatch hn),
    fun hn => (nomatch hn), List.forall_mem_cons.2 ⟨hown, hq'.shown⟩⟩

end

/-- What holds of the streams of related plans one by one, with the groups of the plans. -/
theorem forall₂_streams {R : PhysicalPlan → PhysicalPlan → Prop}
    {Q : GroupId × TupleStream → GroupId × TupleStream → Prop}
    {f : PhysicalPlan → Except Failure TupleStream} {ts ts' : List PhysicalPlan}
    (h : List.Forall₂ R ts ts') {us us' : List TupleStream}
    (hu : List.Forall₂ (fun t u => f t = .ok u) ts us)
    (hu' : List.Forall₂ (fun t u => f t = .ok u) ts' us')
    (hQ : ∀ t ∈ ts, ∀ {t' u u'}, R t t' → f t = .ok u → f t' = .ok u' → Q (t.group, u) (t'.group, u')) :
    List.Forall₂ Q ((ts.map PlanTree.group).zip us) ((ts'.map PlanTree.group).zip us') := by
  induction h generalizing us us' with
  | nil => exact .nil
  | @cons t t' ts ts' ht _ ih =>
    cases hu with
    | cons hu hus =>
      cases hu' with
      | cons hu' hus' =>
        exact .cons (hQ t List.mem_cons_self ht hu hu')
          (ih hus hus' fun t ht => hQ t (List.mem_cons_of_mem _ ht))

theorem forall₂_of_zip {Q : TupleStream → TupleStream → Prop} {gs gs' : List GroupId}
    {us us' : List TupleStream} (hgs : us.length ≤ gs.length) (hgs' : us'.length ≤ gs'.length)
    (h : List.Forall₂ (fun x x' => Q x.2 x'.2) (gs.zip us) (gs'.zip us')) : List.Forall₂ Q us us' := by
  have hmap := List.forall₂_map_left_iff.2 (List.forall₂_map_right_iff.2 h)
  rwa [List.map_snd_zip hgs, List.map_snd_zip hgs'] at hmap

/-- Whether a plan draws the same traces as any plan that it is split into, wherever it stands. -/
def Matched (s : RunState) (canSpill : Bool) (p : Nat) (next : GroupId) (t : PhysicalPlan) : Prop :=
  ∀ {t' hidden n strict u u'}, Splits p next t t' → t.Suited s hidden n strict →
    t.inline canSpill s = .ok u → inline canSpill s t' = .ok u' →
    u.Twin (s.frame hidden) n (Tuple.Fits strict t.columns) u'

section

variable {s : RunState} {canSpill : Bool} {p : Nat} {next : GroupId} {hidden : List GroupId}
  {n strict : Bool} {group : GroupId} {op : Operator} {inputs inputs' : List PhysicalPlan}

theorem Suited.sameShape (hp : 0 < p) (ht : Suited s hidden n strict (.node group op inputs))
    (h : List.Forall₂ (Splits p next) inputs inputs') : List.Forall₂ SameShape inputs inputs' := by
  refine List.forall₂_iff_zip.2 ⟨h.length_eq, fun {t t'} hmem => ?_⟩
  have ht' := ht.input (List.of_mem_zip hmem).1
  exact ((List.forall₂_iff_zip.1 h).2 hmem).sameShape hp t ht'.valid ht'.free.ignores

theorem Suited.shown_readings (ht : Suited s hidden n strict (.node group op inputs)) :
    ∀ g ∈ op.readings, g ∉ (s.frame hidden).hidden := by
  intro g hg hhidden
  apply (ht.shown g hhidden).1
  rw [readings_node]
  exact List.mem_append_left _ hg

theorem Suited.length (ht : Suited s hidden n strict (.node group op inputs)) :
    op.arity.admits inputs.length = true := by
  have harity := (Operator.check_eq_ok.1 (validate_node.1 ht.valid).1).1
  rwa [List.length_map] at harity

theorem Suited.unnumbered (ht : Suited s hidden n strict (.node group op inputs))
    (hop : op.picksRows = true) : n = false := by
  refine Bool.eq_false_iff.2 fun hn => ?_
  have hkeeps : op.picksRows = false := ht.numbered hn _ (mem_subtrees_self _)
  exact Bool.false_ne_true (hkeeps.symm.trans hop)

/-- The inputs of an operator that reads no sub-queries. -/
theorem Suited.inputs_twin (ht : Suited s hidden n strict (.node group op inputs))
    (ih : ∀ t ∈ inputs, t.Matched s canSpill p next) (hsub : ∀ q, op ≠ .subselect q)
    (h : List.Forall₂ (Splits p next) inputs inputs') {us us' : List TupleStream}
    (hus : List.Forall₂ (fun t u => t.inline canSpill s = .ok u) inputs us)
    (hus' : List.Forall₂ (fun t u => t.inline canSpill s = .ok u) inputs' us') :
    List.Forall₂ (TupleStream.Twin (s.frame hidden) n
      (Tuple.Fits strict ((inputs.map columns).headD []))) us us' := by
  refine forall₂_of_zip (by simp [hus.length_eq]) (by simp [hus'.length_eq])
    (forall₂_streams h hus hus' fun t hmem {t' u u'} h hu hu' => ?_)
  rw [← columns_of_check (validate_node.1 ht.valid).1 hsub hmem]
  exact ih t hmem h (ht.input hmem) hu hu'

theorem Suited.subqueries_twin {q : Predicate} {first : PhysicalPlan} {subs subs' : List PhysicalPlan}
    (ht : Suited s hidden n strict (.node group (.subselect q) (first :: subs)))
    (ih : ∀ t ∈ subs, t.Matched s canSpill p next) (hp : 0 < p)
    (h : List.Forall₂ (Splits p next) subs subs') {us us' : List TupleStream}
    (hus : List.Forall₂ (fun t u => t.inline canSpill s = .ok u) subs us)
    (hus' : List.Forall₂ (fun t u => t.inline canSpill s = .ok u) subs' us') :
    List.Forall₂ (TupleStream.SameQuery (s.frame hidden)) ((subs.map PlanTree.group).zip us)
      ((subs'.map PlanTree.group).zip us') := by
  refine forall₂_streams h hus hus' fun t hmem {t' u u'} h hu hu' => ?_
  obtain ⟨hhidden, hown, ht'⟩ := ht.subquery hmem
  have hshape := h.sameShape hp t ht'.valid ht'.free.ignores
  have hkeeps {v : PhysicalPlan} {w : TupleStream} (hv : v.boundGroups = t.boundGroups)
      (hw : v.inline canSpill s = .ok w) : w.Keeps (· ≠ t.group) fun _ => True := by
    refine .mono (fun g hg => ?_) (fun _ h => h) w (inline_keeps v hw)
    rintro rfl
    exact hown (hv ▸ hg)
  exact ⟨hshape.group.symm, hhidden, hkeeps rfl hu, hkeeps hshape.boundGroups hu',
    _, ih t hmem h ht' hu hu'⟩

theorem Suited.subselect_twin {q : Predicate} {first : PhysicalPlan} {subs : List PhysicalPlan}
    (ht : Suited s hidden n strict (.node group (.subselect q) (first :: subs)))
    (ih : ∀ t ∈ first :: subs, t.Matched s canSpill p next) (hp : 0 < p)
    (h : List.Forall₂ (Splits p next) (first :: subs) inputs') {us us' : List TupleStream}
    (hus : List.Forall₂ (fun t u => t.inline canSpill s = .ok u) (first :: subs) us)
    (hus' : List.Forall₂ (fun t u => t.inline canSpill s = .ok u) inputs' us') :
    (TupleStream.subselect q (subs.map PlanTree.group) us).Twin (s.frame hidden) n
      (Tuple.Fits strict first.columns) (TupleStream.subselect q (subs.map PlanTree.group) us') := by
  have hself := mem_subtrees_self (.node group (.subselect q) (first :: subs))
  have hgroups := SameShape.map_eq (fun _ _ ht => ht.group) (ht.sameShape hp h)
  cases h with
  | cons hfirst hsubs =>
    cases hus with
    | cons hu hus =>
      cases hus' with
      | cons hu' hus' =>
        have hqueries := ht.subqueries_twin (fun t ht => ih t (List.mem_cons_of_mem _ ht)) hp hsubs
          hus hus'
        rw [(List.cons.inj hgroups).2] at hqueries
        exact .subselect (ht.free.listing _ hself) ht.shown_readings
          (ih first List.mem_cons_self hfirst (ht.input List.mem_cons_self) hu hu') hqueries

variable (htables : ∀ m, (s.store.unread.table m).Sound)
include htables

theorem Suited.only_twin {t t' : PhysicalPlan} (ht : Suited s hidden n strict (.node group op [t]))
    (ih : t.Matched s canSpill p next) (harity : op.arity = .exactly 1) (hp : 0 < p)
    (h : Splits p next t t') {u u' : TupleStream} (hu : inline canSpill s (.node group op [t]) = .ok u)
    (hu' : inline canSpill s (.node group op [t']) = .ok u') :
    u.Twin (s.frame hidden) n (Tuple.Fits strict (op.columns t.columns)) u' := by
  have hself := mem_subtrees_self (.node group op [t])
  have hshape := h.sameShape hp t ht.only.valid ht.only.free.ignores
  rw [inline_single] at hu hu'
  rw [hshape.columns, hshape.group] at hu'
  obtain ⟨v, hv, hu⟩ := Except.bind_eq_ok.1 hu
  obtain ⟨v', hv', hu'⟩ := Except.bind_eq_ok.1 hu'
  have htyped : (strict || op.isExtremum) = true → op.Typed s.bindings.slots t.columns := by
    intro hstrict
    rcases Bool.or_eq_true_iff.1 hstrict with hstrict | hop
    · exact ht.typed hstrict _ hself
    · exact ht.free.typed _ hself hop _ hself
  have htwin := Operator.twin_single harity (ht.free.ignores _ hself) (ht.free.listing _ hself)
    ht.shown_readings htables (fun hop => Bool.or_eq_true_iff.2 (.inr hop))
    (fun hop => Bool.or_eq_true_iff.2 (.inr hop)) htyped (ih h ht.only hv hv') hu hu'
  have hfits := htwin.mono fun w hw => hw.mono fun hstrict => Bool.or_eq_true_iff.2 (.inl hstrict)
  exact hfits.forget (fun hn => Bool.or_eq_true_iff.2 (.inl hn)) fun _ => Tuple.fits_seen.2

/-- A leaf, or a node that reads several inputs. -/
theorem Suited.several_twin (ht : Suited s hidden n strict (.node group op inputs))
    (ih : ∀ t ∈ inputs, t.Matched s canSpill p next) (harity : op.arity ≠ .exactly 1) (hp : 0 < p)
    (h : List.Forall₂ (Splits p next) inputs inputs') {u u' : TupleStream}
    (hu : inline canSpill s (.node group op inputs) = .ok u)
    (hu' : inline canSpill s (.node group op inputs') = .ok u') :
    u.Twin (s.frame hidden) n
      (Tuple.Fits strict (op.columns ((inputs.map columns).headD []))) u' := by
  have hop : op.ignoresOrder = true := ht.free.ignores _ (mem_subtrees_self _)
  have hshape := ht.sameShape hp h
  rw [inline_node] at hu hu'
  rw [SameShape.map_eq (fun _ _ ht => ht.columns) hshape,
    SameShape.map_eq (fun _ _ ht => ht.group) hshape] at hu'
  obtain ⟨us, hus, hu⟩ := Except.bind_eq_ok.1 hu
  obtain ⟨us', hus', hu'⟩ := Except.bind_eq_ok.1 hu'
  replace hus := Except.mapM_eq_ok.1 hus
  replace hus' := Except.mapM_eq_ok.1 hus'
  cases op with
  | scan table cs i k =>
    cases hu.symm.trans hu'
    have htwin := TupleStream.Twin.scan (c := s.frame hidden) rfl (htables table.number) hu strict
    exact htwin.forget (fun _ => rfl) fun _ => Tuple.fits_seen.2
  | union distinct =>
    cases hu
    cases hu'
    exact .union distinct ht.unnumbered _ (ht.inputs_twin ih (fun _ => by simp) h hus hus')
  | intersect =>
    cases hu
    cases hu'
    cases ht.unnumbered rfl
    cases ht.inputs_twin ih (fun _ => by simp) h hus hus' with
    | nil =>
      cases hus
      exact absurd ht.length (by decide)
    | cons hfirst hrest => exact .intersect _ hfirst hrest
  | subselect q =>
    cases hu
    cases hu'
    cases inputs with
    | nil => exact absurd ht.length Bool.false_ne_true
    | cons first subs => exact ht.subselect_twin ih hp h hus hus'
  | projection q => exact absurd (by cases q <;> rfl) harity
  | filter q => exact absurd rfl harity
  | function f arguments out => exact absurd rfl harity
  | fetch h wanted => exact absurd rfl harity
  | sort order => exact absurd rfl harity
  | externalSort order chunk => exact absurd rfl harity
  | _ => cases hop

/-- A plan and the split plan draw the same traces. -/
theorem matched (hp : 0 < p) (hw : p < 18446744073709551616) (t : PhysicalPlan) :
    t.Matched s canSpill p next := by
  induction t using PlanTree.induct with
  | node group op inputs ih =>
    intro t' hidden n strict u u' h ht hu hu'
    have hop : op.ignoresOrder = true := ht.free.ignores _ (mem_subtrees_self _)
    rcases splits_cases hop h with ⟨hchain, rfl⟩ | ⟨inputs', rfl, hinputs⟩
    · obtain ⟨table, cs, f, hf⟩ := exists_changes (c := s.frame hidden) rfl htables _ hchain
        ht.free.listing fun g hg hhidden => (ht.shown g hhidden).1 hg
      exact (hf.parts_twin (htables table.number) ht.typed hp hw hu hu').forget (fun _ => rfl)
        fun _ => Tuple.fits_seen.2
    · rw [columns_node]
      by_cases harity : op.arity = .exactly 1
      · have hlength := ht.length
        rw [harity, Arity.admits, beq_iff_eq] at hlength
        obtain ⟨t, rfl⟩ := List.length_eq_one_iff.1 hlength
        obtain ⟨t', rest, hinput, hrest, rfl⟩ := List.forall₂_cons_left_iff.1 hinputs
        cases hrest
        exact ht.only_twin htables (ih t (List.mem_singleton_self t)) harity hp hinput hu hu'
      · exact ht.several_twin htables ih harity hp hinputs hu hu'

end

/-! ## Executions -/

theorem Unordered.readsOnly {t : PhysicalPlan} (h : t.Unordered) : t.ReadsOnly := by
  intro u hu
  have hignores := h.ignores u hu
  generalize u.op = op at hignores
  cases op with
  | _ => first | rfl | cases hignores

theorem splitKept_reading : SplitKept fun op => op.writes = false where
  restrict {op} i p hop := by
    cases op with
    | _ => first | rfl | exact hop
  merge := rfl
  limitingSort _ _ := rfl
  mergeLimitingSort _ := rfl

/-- The rows of an execution that comes to its end are those of the trace. -/
theorem rows_perm {limits : RunLimits} {t : PhysicalPlan} {q : QueryContext} {e : EngineState}
    {r : Run} (happart : 0 < limits.maxWorkers → t.Apart) (h : t.CanComeTo limits q e (pure r))
    (hend : r.ending = .finished) {u : TupleStream} (hu : t.inline (limits.canSpill || false) (q.runState e) = .ok u) {c : Frame}
    {n : Bool} {v v' : View} {L : Trace} (hdraws : u.Draws c n v L v')
    (hs : (q.runState e).Shows c v) : (r.rows.map (·.seen n)).Perm (L.map Prod.snd) := by
  obtain ⟨w, hw, hlike⟩ := h.like_inline happart false
  cases hu.symm.trans hw
  cases hlike with
  | excused _ he _ => cases he.1
  | alike hrows hshows _ _ =>
    rw [hrows]
    rw [hend] at hshows
    generalize hend' : (u.run (q.runState e)).ending = ending at hshows
    cases hshows with
    | same => exact TupleStream.Draws.run _ hdraws hs hend'

/-- Splitting a plan in which the order of rows does not matter leaves the rows of values as they are,
up to their order and whenever workers pull, if the workers of both plans stay apart. -/
theorem tryPartition_perm {limits : RunLimits} {q : QueryContext} {e : EngineState}
    {t t' : PhysicalPlan} {p : Nat} {next next' : GroupId} {r r' : Run}
    (htables : ∀ x ∈ e.store.tables, x.Reachable) (hvalid : t.validate = .ok ())
    (hfree : t.OrderFree q.bindings.slots) (hw : p < 18446744073709551616)
    (hsplit : t.tryPartition p next = some (t', next'))
    (happart : 0 < limits.maxWorkers → t.ResultsApart ∧ t'.ResultsApart) (hrun : t.CanComeTo limits q e (pure r))
    (hrun' : t'.CanComeTo limits q e (pure r')) (hend : r.ending = .finished)
    (hend' : r'.ending = .finished) : (r.rows.map (·.values)).Perm (r'.rows.map (·.values)) := by
  have hreads : t.ReadsOnly := hfree.readsOnly
  have hreads' : t'.ReadsOnly := every_tryPartition splitKept_reading hreads hsplit
  have happart₁ : 0 < limits.maxWorkers → t.Apart := fun h => hreads.apart (happart h).1
  have happart₂ : 0 < limits.maxWorkers → t'.Apart := fun h => hreads'.apart (happart h).2
  unfold tryPartition at hsplit
  split at hsplit
  · cases hsplit
  rename_i hp
  obtain ⟨_, hfirst, hpair⟩ := Option.map_eq_some_iff.1 hsplit
  cases hpair
  have htables : ∀ m, ((q.runState e).store.unread.table m).Sound := by
    intro m
    rw [Store.table_unread]
    exact (Store.table_sound htables m).unread
  have hsuited : t.Suited (q.runState e) [] false false :=
    ⟨hvalid, hfree, fun h => (nomatch h), fun h => (nomatch h), fun g hg => (nomatch hg)⟩
  obtain ⟨u, hu, _⟩ := hrun.like_inline happart₁ false
  obtain ⟨u', hu', _⟩ := hrun'.like_inline happart₂ false
  have hshows : (q.runState e).Shows ((q.runState e).frame []) q.bindings.resultSet :=
    ⟨rfl, rfl, fun g => if_neg List.not_mem_nil⟩
  obtain ⟨L, v, _, hdraws, hdraws'⟩ :=
    matched htables (by omega) hw t (.inr hfirst) hsuited hu hu' q.bindings.resultSet
  have hperm := (rows_perm happart₁ hrun hend hu hdraws hshows).trans
    (rows_perm happart₂ hrun' hend' hu' hdraws' hshows).symm
  have hvalues := hperm.map (·.values)
  simpa only [List.map_map, Function.comp_def, Tuple.values_seen] using hvalues

/-! ### Halves -/

namespace Halves

def x : Column := ⟨"t.x", .long, false⟩

def y : Column := ⟨"t.y", .long, false⟩

def least : Column := ⟨"min(x)", .long, true⟩

def table : Table := ⟨"t", [x, y],
  [(0, [.long 9, .long 9]), (1, [.long 1, .long 2]), (2, [.long 2, .long 1])], 3, [], 0⟩

theorem table_reachable : table.Reachable := by
  have hempty := Table.Reachable.empty "t" [x, y]
  have hone : (Table.empty "t" [x, y]).insert [x, y] [.long 9, .long 9] =
      .ok (0, ⟨"t", [x, y], [(0, [.long 9, .long 9])], 1, [], 0⟩) := by decide
  have htwo : (⟨"t", [x, y], [(0, [.long 9, .long 9])], 1, [], 0⟩ : Table).insert [x, y]
      [.long 1, .long 2] = .ok (1, ⟨"t", [x, y],
        [(0, [.long 9, .long 9]), (1, [.long 1, .long 2])], 2, [], 0⟩) := by decide
  have hthree : (⟨"t", [x, y], [(0, [.long 9, .long 9]), (1, [.long 1, .long 2])], 2, [],
      0⟩ : Table).insert [x, y] [.long 2, .long 1] = .ok (2, table) := by decide
  exact .insert (.insert (.insert hempty (by decide) hone) (by decide) htwo) (by decide) hthree

def engine : EngineState := ⟨⟨[table]⟩, .empty⟩

def handle : TableHandle := engine.store.handle 0

def query : QueryContext := ⟨.none, .standard, .empty, 0, false⟩

def limits : RunLimits := ⟨2, 0, true⟩

def scan (group : GroupId) (partitions : Nat) : PhysicalPlan :=
  .node group (.scan handle [x, y] 0 partitions) []

/-- The least of a column as a sub-query. -/
def minimum : PhysicalPlan := .node 5 (.projection (.min x)) [scan 5 1]

/-- The rows with the least value in a column. -/
def rowsOfLeast : PhysicalPlan :=
  .node 0 (.subselect (.atom (.oneOf (.column x) [.subquery 5 least]) false)) [scan 0 1, minimum]

def rowsOfLeastSplit : PhysicalPlan :=
  .node 0 (.subselect (.atom (.oneOf (.column x) [.subquery 5 least]) false))
    [.node 0 .merge [scan 0 2, .node 7 (.scan handle [x, y] 1 2) []], minimum]

theorem rowsOfLeast_orderFree : rowsOfLeast.OrderFree query.bindings.slots := by
  have hsubtrees : rowsOfLeast.subtrees = [rowsOfLeast, scan 0 1, minimum, scan 5 1] := rfl
  have hminimum : minimum.subtrees = [minimum, scan 5 1] := rfl
  refine ⟨⟨by decide, by decide, ?_⟩, ?_, ?_⟩ <;> rw [hsubtrees]
  · simp only [List.forall_mem_cons]
    exact ⟨nofun, nofun, nofun, nofun, nofun⟩
  · decide
  · have htyped : minimum.Typed query.bindings.slots := by
      rw [Typed, hminimum]
      exact List.forall_mem_cons.2 ⟨trivial, List.forall_mem_singleton.2 trivial⟩
    simp only [List.forall_mem_cons]
    exact ⟨nofun, nofun, fun _ => htyped, nofun, nofun⟩

/-- A sub-query whose predicate reads the results that it has added so far. -/
def growing : PhysicalPlan :=
  .node 0 (.subselect (.atom (.oneOf (.column y) [.subquery 0 x]) true)) [scan 0 1, scan 6 1]

def rowsOfGrowing : PhysicalPlan :=
  .node 0 (.subselect (.atom (.oneOf (.column x) [.subquery 0 x]) false)) [scan 0 2, growing]

/-- The rows that a sub-query lists. -/
def listed : Predicate := .atom (.oneOf (.column x) [.subquery 5 x]) false

/-- Rows that are looked for among the results of a sub-query twice. -/
def rowsListed : PhysicalPlan :=
  .node 0 (.subselect listed) [.node 0 (.filter listed) [scan 0 1], scan 5 1]

/-- The same over two parts, of which the second one is of a group of its own. -/
def rowsListedSplit : PhysicalPlan :=
  .node 0 (.subselect listed) [.node 0 .merge [.node 0 (.filter listed) [scan 0 2],
    .node 7 (.filter listed) [.node 7 (.scan handle [x, y] 1 2) []]], scan 5 1]

def f : Column := ⟨"t.f", .float, false⟩

/-- Three different numbers of which the last two are sorted alike. -/
def floats : Table := ⟨"t", [f],
  [(0, [.float ⟨0x7fc00003⟩]), (1, [.float ⟨0x7fc00001⟩]), (2, [.float ⟨0x7f800001⟩])], 3, [], 0⟩

theorem floats_reachable : floats.Reachable := by
  have hempty := Table.Reachable.empty "t" [f]
  have hone : (Table.empty "t" [f]).insert [f] [.float ⟨0x7fc00003⟩] =
      .ok (0, ⟨"t", [f], [(0, [.float ⟨0x7fc00003⟩])], 1, [], 0⟩) := by decide
  have htwo : (⟨"t", [f], [(0, [.float ⟨0x7fc00003⟩])], 1, [], 0⟩ : Table).insert [f]
      [.float ⟨0x7fc00001⟩] = .ok (1, ⟨"t", [f],
        [(0, [.float ⟨0x7fc00003⟩]), (1, [.float ⟨0x7fc00001⟩])], 2, [], 0⟩) := by decide
  have hthree : (⟨"t", [f], [(0, [.float ⟨0x7fc00003⟩]), (1, [.float ⟨0x7fc00001⟩])], 2, [],
      0⟩ : Table).insert [f] [.float ⟨0x7f800001⟩] = .ok (2, floats) := by decide
  exact .insert (.insert (.insert hempty (by decide) hone) (by decide) htwo) (by decide) hthree

def floatEngine : EngineState := ⟨⟨[floats]⟩, .empty⟩

/-- The least of the numbers, which a function gives for a column of another type. -/
def leastFloat : PhysicalPlan :=
  .unary (.projection (.min x)) (.unary
    (.function (.ofKernel ⟨"touchy", [.float], .float⟩ touchyKernel) [.column f] x)
    (.node 0 (.scan (floatEngine.store.handle 0) [f] 0 1) []))

/-- Whether a valid plan of operators that do not care about the order may come to other rows of values
once it is split into the plan `t'`. -/
def ComesApart (e : EngineState) (t t' : PhysicalPlan) : Prop :=
  (∀ x ∈ e.store.tables, x.Reachable) ∧ t.validate = .ok () ∧ t.Unordered ∧ t.boundGroups.Nodup ∧
    ∃ next' r r', t.tryPartition 2 7 = some (t', next') ∧
      t.CanComeTo limits query e (pure r) ∧ r.ending = .finished ∧
      t'.CanComeTo limits query e (pure r') ∧ r'.ending = .finished ∧
      ¬ (r.rows.map (·.values)).Perm (r'.rows.map (·.values))

theorem rowsOfGrowing_unordered : rowsOfGrowing.Unordered := by
  have hsubtrees : rowsOfGrowing.subtrees =
      [rowsOfGrowing, scan 0 2, growing, scan 0 1, scan 6 1] := rfl
  refine ⟨by decide, by decide, ?_⟩
  simp only [hsubtrees, List.forall_mem_cons]
  exact ⟨nofun, nofun, nofun, nofun, nofun, nofun⟩

theorem rowsListed_unordered : rowsListed.Unordered := by
  have hsubtrees : rowsListed.subtrees = [rowsListed, _, scan 0 1, scan 5 1] := rfl
  refine ⟨by decide, by decide, ?_⟩
  simp only [hsubtrees, List.forall_mem_cons]
  exact ⟨nofun, nofun, nofun, nofun, nofun⟩

theorem leastFloat_unordered : leastFloat.Unordered := by
  have hsubtrees : leastFloat.subtrees = [leastFloat, _, _] := rfl
  refine ⟨by decide, by decide, ?_⟩
  simp only [hsubtrees, List.forall_mem_cons]
  exact ⟨nofun, nofun, nofun, nofun⟩

end Halves

open Halves in
/-- The second part and the sub-query run on workers. -/
theorem tryPartition_perm_least : ∃ t' next' r u,
    rowsOfLeast.tryPartition 2 7 = some (t', next') ∧
    rowsOfLeast.execute limits query engine = pure r ∧ r.ending = .finished ∧
    Schedules limits (query.runState engine) t' t' u ∧
    (u.run (query.runState engine)).ending = .finished ∧
    (r.rows.map (·.values)).Perm ((u.run (query.runState engine)).rows.map (·.values)) := by
  obtain ⟨r, hrun, hend⟩ : ∃ r, rowsOfLeast.execute limits query engine = pure r ∧
      r.ending = .finished := ⟨_, rfl, by decide +kernel⟩
  have hworkers : ∃ u, Schedules limits (query.runState engine) rowsOfLeastSplit rowsOfLeastSplit u ∧
      (u.run (query.runState engine)).ending = .finished := by
    refine ⟨_, schedules_node.2 ⟨_, .cons ⟨_, schedules_node.2 ⟨_, .cons ⟨_, .leaf rfl,
      .inline _⟩ (.cons ⟨_, .leaf rfl, .worker (by decide) (by decide) .empty _⟩ .nil), rfl⟩,
      .inline _⟩ (.cons ⟨_, .single (.leaf rfl) (.inline _) rfl,
      .worker (by decide) (by decide) .empty _⟩ .nil), rfl⟩, ?_⟩
    decide +kernel
  obtain ⟨u, hu, hend'⟩ := hworkers
  have hsplit : rowsOfLeast.tryPartition 2 7 = some (rowsOfLeastSplit, 8) := rfl
  exact ⟨rowsOfLeastSplit, 8, r, u, hsplit, hrun, hend, hu, hend',
    tryPartition_perm (List.forall_mem_singleton.2 table_reachable) (by decide)
      rowsOfLeast_orderFree (by decide) hsplit
      (fun _ => ⟨by decide +kernel, by decide +kernel⟩) (.inl hrun.symm) (.inr ⟨_, u, rfl, hu, rfl⟩) hend hend'⟩

open Halves in
/-- The order matters to a sub-query that reads its own results while it is read, and to the least of
values that are not of the type of their column. A part on a worker of its own may look for results
before they are bound. -/
theorem tryPartition_not_perm :
    (∃ t', ComesApart engine rowsOfGrowing t' ∧ rowsOfGrowing.ResultsApart ∧ t'.ResultsApart) ∧
    (∃ t', ComesApart floatEngine leastFloat t' ∧ leastFloat.ResultsApart ∧ t'.ResultsApart) ∧
    ComesApart engine rowsListed rowsListedSplit := by
  refine ⟨?_, ?_, ?_⟩
  · exact ⟨_, ⟨List.forall_mem_singleton.2 table_reachable, by decide, rowsOfGrowing_unordered,
      by decide, _, _, _, rfl, .inl rfl, by decide +kernel, .inl rfl, by decide +kernel,
      by decide +kernel⟩, by decide +kernel, by decide +kernel⟩
  · exact ⟨_, ⟨List.forall_mem_singleton.2 floats_reachable, by decide, leastFloat_unordered,
      by decide, _, _, _, rfl, .inl rfl, by decide +kernel, .inl rfl, by decide +kernel,
      by decide +kernel⟩, by decide +kernel, by decide +kernel⟩
  · have hearly : ∃ u, Schedules limits (query.runState engine) rowsListedSplit rowsListedSplit u ∧
        (u.run (query.runState engine)).ending = .finished ∧
        (u.run (query.runState engine)).rows.map (·.values) =
          [[.long 9, .long 9], [.long 2, .long 1]] := by
      -- The worker of the second part finds the results opened and still empty.
      refine ⟨_, schedules_node.2 ⟨_, .cons ⟨_, schedules_node.2 ⟨_, .cons ⟨_, .single (.leaf rfl)
        (.inline _) rfl, .inline _⟩ (.cons ⟨_, .single (.leaf rfl) (.inline _) rfl,
        .worker (by decide) (by decide) (Bindings.empty.openSubquery 5) _⟩ .nil), rfl⟩,
        .inline _⟩ (.cons ⟨_, .leaf rfl, .inline _⟩ .nil), rfl⟩, ?_, ?_⟩
      · decide +kernel
      · decide +kernel
    obtain ⟨u, hu, hend, hrows⟩ := hearly
    refine ⟨List.forall_mem_singleton.2 table_reachable, by decide, rowsListed_unordered, by decide,
      8, _, _, rfl, .inl rfl, by decide +kernel, .inr ⟨_, u, rfl, hu, rfl⟩, hend, ?_⟩
    rw [hrows]
    decide +kernel

end PhysicalPlan

end QueryEngine
