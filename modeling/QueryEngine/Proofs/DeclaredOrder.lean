import QueryEngine.Proofs.Ascending
import QueryEngine.Proofs.Fixpoint
import QueryEngine.Proofs.Schema

/-!
# Declared orders

A plan with an order trait declares that its tuples come in this order. Sorts and ordered merges set
the trait, and operators that work tuple by tuple pass it on, also where they drop key columns. So
the tuples are in order by the keys that are carried over, up to the first one that is not. They are
in the declared order if no later key is left among the columns of the output.
-/

set_option autoImplicit false

namespace QueryEngine

open Std

/-! ## Order traits -/

namespace TraitSet

variable (s : TraitSet) {t : Trait}

theorem find?_replace (t : Trait) (kind : TraitKind) (l : List Trait) :
    (l.map fun u => if u.kind = t.kind then t else u).find? (·.kind = kind) =
      (l.find? (·.kind = kind)).map fun u => if t.kind = kind then t else u := by
  induction l with
  | nil => rfl
  | cons u l ih =>
    rw [List.map_cons, List.find?_cons, List.find?_cons]
    by_cases hu : u.kind = t.kind
    · rw [if_pos hu, hu]
      by_cases hk : t.kind = kind
      · simp [hk]
      · simpa [hk] using ih
    · rw [if_neg hu]
      by_cases hk : u.kind = kind
      · have hne : t.kind ≠ kind := fun he => hu (hk.trans he.symm)
        simp [hk, hne]
      · simpa [hk] using ih

theorem get?_insert (t : Trait) (kind : TraitKind) :
    (s.insert t).get? kind = if t.kind = kind then some t else s.get? kind := by
  unfold insert
  split
  · rename_i hhas
    rw [get?, find?_replace, ← get?]
    by_cases hk : t.kind = kind
    · subst hk
      obtain ⟨u, hu⟩ := Option.isSome_iff_exists.1 hhas
      simp [hu]
    · simp [hk]
  · rename_i hhas
    rw [get?, List.find?_append, ← get?]
    by_cases hk : t.kind = kind
    · subst hk
      have hnone : s.get? t.kind = none := Option.not_isSome_iff_eq_none.1 hhas
      simp [hnone]
    · simp [hk]

@[simp]
theorem order?_insert_order (keys : SortOrder) : (s.insert (.order keys)).order? = some keys := by
  rw [order?, get?_insert]
  rfl

theorem order?_insert (h : t.kind ≠ .order) : (s.insert t).order? = s.order? := by
  rw [order?, get?_insert, if_neg h, order?]

@[simp]
theorem order?_insert_limit (bounds : RowLimit) : (s.insert (.limit bounds)).order? = s.order? :=
  s.order?_insert fun he => nomatch he

@[simp]
theorem order?_insert_materialized : (s.insert .materialized).order? = s.order? :=
  s.order?_insert (by decide)

@[simp]
theorem order?_insert_notPartitionable : (s.insert .notPartitionable).order? = s.order? :=
  s.order?_insert (by decide)

end TraitSet

namespace Operator

/-- Whether an operator passes on the order of its input. -/
def keepsOrder : Operator → Bool
  | filter _ => true
  | subselect _ => true
  | function .. => true
  | fetch .. => true
  | limit _ => true
  | projection p => !p.isAggregate
  | _ => false

/-- The order in which an operator puts its tuples. -/
def sortOrder? : Operator → Option SortOrder
  | sort order => some order
  | externalSort order _ => some order
  | limitingSort order _ => some order
  | mergeLimitingSort order _ => some order
  | _ => none

/-- The columns of the output with the values of the input, if these columns of the input have the
values of the sort below. -/
def carries (op : Operator) (input below : List Column) : List Column :=
  match op with
  | projection (.select cs) => below.filter (· ∈ cs)
  | _ => if op.keepsOrder then below else op.columns input

theorem order?_traits (op : Operator) (input : TraitSet) :
    (op.traits input).order? = if op.keepsOrder then input.order? else op.sortOrder? := by
  have hempty : TraitSet.empty.order? = none := rfl
  cases op with
  | scan t cs i n =>
    rw [traits]
    split
    · rfl
    · rfl
  | projection p =>
    simp only [traits, keepsOrder, sortOrder?]
    by_cases hp : p.isAggregate = true
    · simp [hp, blocked, hempty]
    · simp [hp]
  | sort order => simp [traits, keepsOrder, sortOrder?]
  | externalSort order chunk => simp [traits, keepsOrder, sortOrder?]
  | limitingSort order bounds => simp [traits, keepsOrder, sortOrder?]
  | mergeLimitingSort order bounds => simp [traits, keepsOrder, sortOrder?]
  | limit bounds => simp [traits, keepsOrder]
  | subselect p => simp [traits, keepsOrder]
  | _ => rfl

end Operator

/-! ## Comparisons by some keys -/

theorem Tuple.Laid.valueOf_of_not_mem {u : Tuple} {cs : List Column} {c : Column} (h : u.Laid cs)
    (hc : c ∉ cs) : u.valueOf c = .null := by
  have hnone : u.get? c = .ok none := get?_eq_none.2 (h.1.symm ▸ hc)
  refine valueOf_eq ?_
  rw [getOrNull, hnone]
  rfl

namespace SortOrder

/-- Whether a tuple may stand behind another one in an order. -/
def NotGreater (order : SortOrder) (u v : Tuple) : Prop :=
  ∃ o, order.compareTuples u v = .ok o ∧ o.isLE

/-- The keys up to the first one whose column is not carried over. -/
def front (order : SortOrder) (carried : List Column) : SortOrder :=
  order.takeWhile (·.1 ∈ carried)

/-- The keys from that one on. -/
def later (order : SortOrder) (carried : List Column) : SortOrder :=
  order.dropWhile (·.1 ∈ carried)

/-- Whether the later keys make no difference to tuples with the columns `cs`: a column that a tuple
lacks counts as null. -/
def Survives (order : SortOrder) (carried cs : List Column) : Prop :=
  ∀ key ∈ order.later carried, key.1 ∈ cs → key.1 ∈ (order.front carried).map (·.1)

instance (order : SortOrder) (carried cs : List Column) : Decidable (order.Survives carried cs) :=
  inferInstanceAs (Decidable (∀ key ∈ order.later carried, key.1 ∈ cs →
    key.1 ∈ (order.front carried).map (·.1)))

variable {order : SortOrder} {carried cs : List Column} {kinds : Column → String} {u v : Tuple}

theorem front_prefix (order : SortOrder) (carried : List Column) : order.front carried <+: order :=
  List.takeWhile_prefix _

theorem mem_carried_of_front : ∀ key ∈ order.front carried, key.1 ∈ carried := by
  intro key hkey
  have hall := List.all_takeWhile (p := fun key : Column × Direction => key.1 ∈ carried) (l := order)
  exact of_decide_eq_true (List.all_eq_true.1 hall key hkey)

theorem compareKeys_eq_iff :
    order.compareKeys u v = .eq ↔
      ∀ key ∈ order, (u.valueOf key.1).comparePlaces (v.valueOf key.1) = .eq := by
  induction order with
  | nil => exact iff_of_true rfl (List.forall_mem_nil _)
  | cons key rest ih =>
    obtain ⟨c, d⟩ := key
    rw [List.forall_mem_cons, ← ih]
    cases d with
    | ascending => exact Ordering.then_eq_eq
    | descending =>
      refine Ordering.then_eq_eq.trans (and_congr_left fun _ => ?_)
      exact OrientedCmp.eq_comm

theorem notGreater_of_keyed (hu : u.Keyed cs kinds order) (hv : v.Keyed cs kinds order)
    (h : (order.compareKeys u v).isLE) : order.NotGreater u v :=
  ⟨_, compareTuples_eq hu.laid hv.laid fun _ hkey => hu.kinds.sameKind hv.kinds hkey, h⟩

/-- Keys that make no difference may be added. -/
theorem Survives.notGreater (h : order.Survives carried cs)
    (hu : u.Keyed cs kinds (order.front carried)) (hv : v.Keyed cs kinds (order.front carried))
    (hle : ((order.front carried).compareKeys u v).isLE) : order.NotGreater u v := by
  have hsplit : order.front carried ++ order.later carried = order :=
    List.takeWhile_append_dropWhile
  -- A later key is one of the first ones again, or both tuples lack its column.
  have hlater : ∀ key ∈ order.later carried,
      (∃ first ∈ order.front carried, first.1 = key.1) ∨
        u.valueOf key.1 = .null ∧ v.valueOf key.1 = .null := by
    intro key hkey
    by_cases hcs : key.1 ∈ cs
    · exact .inl (List.mem_map.1 (h key hkey hcs))
    · exact .inr ⟨hu.laid.valueOf_of_not_mem hcs, hv.laid.valueOf_of_not_mem hcs⟩
  have hkinds : ∀ key ∈ order, (u.valueOf key.1).SameKind (v.valueOf key.1) := by
    intro key hkey
    rw [← hsplit] at hkey
    rcases List.mem_append.1 hkey with hkey | hkey
    · exact hu.kinds.sameKind hv.kinds hkey
    · rcases hlater key hkey with ⟨first, hfirst, he⟩ | ⟨hnull, -⟩
      · exact he ▸ hu.kinds.sameKind hv.kinds hfirst
      · rw [hnull]
        exact .inl rfl
  refine ⟨_, compareTuples_eq hu.laid hv.laid hkinds, ?_⟩
  rw [← hsplit, compareKeys_append]
  cases hfront : (order.front carried).compareKeys u v with
  | lt => rfl
  | gt =>
    rw [hfront] at hle
    cases hle
  | eq =>
    rw [compareKeys_eq_iff] at hfront
    have hrest : (order.later carried).compareKeys u v = .eq := by
      refine compareKeys_eq_iff.2 fun key hkey => ?_
      rcases hlater key hkey with ⟨first, hfirst, he⟩ | ⟨hnull, hnull'⟩
      · exact he ▸ hfront first hfirst
      · rw [hnull, hnull']
        exact ReflCmp.compare_self
    rw [hrest]
    rfl

end SortOrder

/-! ## Operators that keep an order -/

namespace Operator

variable {op : Operator} {input below : List Column}

theorem carries_subset (h : ∀ c ∈ below, c ∈ input) :
    ∀ c ∈ op.carries input below, c ∈ op.columns input := by
  intro c hc
  cases op with
  | filter p => exact h c hc
  | subselect p => exact h c hc
  | limit bounds => exact h c hc
  | function f arguments out => exact List.mem_append_left _ (h c hc)
  | fetch t cs => exact List.mem_append_left _ (h c hc)
  | projection p =>
    cases p with
    | select cs => exact of_decide_eq_true (List.mem_filter.1 hc).2
    | _ => exact hc
  | _ => exact hc

theorem mem_of_carries (hop : op.keepsOrder = true) {c : Column} (hc : c ∈ op.carries input below) :
    c ∈ below := by
  cases op with
  | projection p =>
    cases p with
    | select cs => exact (List.mem_filter.1 hc).1
    | _ => cases hop
  | filter p => exact hc
  | subselect p => exact hc
  | limit bounds => exact hc
  | function f arguments out => exact hc
  | fetch t cs => exact hc
  | _ => cases hop

end Operator

section Streams

variable {limits : RunLimits} {I : RunState → Prop} {kinds : Column → String} {front : SortOrder}

open Lowering

/-- What works tuple by tuple keeps the order by those keys that it carries over. -/
theorem TupleStream.Ascends.stream (hI : RunState.Lasting I) {s : RunState} {op : Operator}
    (hop : op.keepsOrder = true) {input : List Column} {groups : List GroupId}
    {first v : TupleStream} {others : List TupleStream}
    (hfirst : first.Ascends I (Tuple.Keyed input kinds front) front none)
    (hothers : ∀ p, op = .subselect p → ∀ w ∈ others, w.Supplies I fun _ => True)
    (hone : (∀ p, op ≠ .subselect p) → others = [])
    (hkeys : ∀ key ∈ front, key.1 ∈ input ∧ key.1 ∈ op.columns input)
    (hv : Lowering.stream limits s op (op.columns input) groups (first :: others) = .ok v) :
    v.Ascends I (front.OfKinds kinds) front none := by
  have hof (u : Tuple) (hu : Tuple.Keyed input kinds front u) : front.OfKinds kinds u := hu.kinds
  have hcarry {u w : Tuple} (hu : Tuple.Keyed input kinds front u) (h : front.SameKeys w u) :
      front.OfKinds kinds w ∧ front.SameKeys w u := ⟨hu.kinds.congr h, h⟩
  cases op with
  | filter p =>
    obtain rfl := hone fun _ he => nomatch he
    cases hv
    exact (hfirst.filter hI p).mono hof List.prefix_rfl
  | subselect p =>
    cases hv
    exact (hfirst.subselect hI p _ (hothers p rfl)).mono hof List.prefix_rfl
  | limit bounds =>
    obtain rfl := hone fun _ he => nomatch he
    cases hv
    exact (hfirst.limit bounds).mono hof List.prefix_rfl
  | function f arguments out =>
    obtain rfl := hone fun _ he => nomatch he
    cases hv
    refine hfirst.apply f arguments fun u x hu => hcarry hu fun key hkey => ?_
    exact Tuple.valueOf_congr (hu.laid.get?_extend_of_mem (hkeys key hkey).1 out)
  | fetch t cs =>
    obtain rfl := hone fun _ he => nomatch he
    cases hv
    refine hfirst.fetch hI t cs (fun u w hu hw => hcarry hu fun key hkey => ?_)
      fun u found w hu hw => hcarry hu fun key hkey => ?_
    · exact Tuple.valueOf_project hw (hkeys key hkey).2
    · exact Tuple.valueOf_complete hu.laid hw (hkeys key hkey).2 (hkeys key hkey).1
  | projection p =>
    cases p with
    | select cs =>
      obtain rfl := hone fun _ he => nomatch he
      cases hv
      refine hfirst.changeEach fun u w hu hw => hcarry hu fun key hkey => ?_
      exact Tuple.valueOf_project hw (hkeys key hkey).2
    | _ => cases hop
  | _ => cases hop

namespace PhysicalPlan

/-- Whether the streams that are set up for a plan supply such tuples only. -/
def Supplies (limits : RunLimits) (I : RunState → Prop) (P : Tuple → Prop) (t : PhysicalPlan) :
    Prop :=
  ∀ before v after, I before.run → lower limits t before = (.ok v, after) → v.Supplies I P

/-- Whether they ascend by some keys, which are null or of the kinds of their columns. -/
def Ascends (limits : RunLimits) (I : RunState → Prop) (kinds : Column → String)
    (front : SortOrder) (t : PhysicalPlan) : Prop :=
  ∀ before v after, I before.run → lower limits t before = (.ok v, after) →
    v.Ascends I (Tuple.Keyed t.columns kinds front) front none

/-- What a plan is run on. Its states have a property that lasts, also while sub-queries are read.
The keys of each sort are null or of one kind for each column. -/
structure KeysOfKinds (limits : RunLimits) (I : RunState → Prop) (t : PhysicalPlan) : Prop where
  lasting : RunState.Lasting I
  indexes : ∀ s, I s → t.IndexesFit s.store
  subqueries : ∀ u ∈ t.subtrees, ∀ p, u.op = .subselect p →
    ∀ c ∈ u.inputs.tail, Supplies limits I (fun _ => True) c
  sorts : ∀ u ∈ t.subtrees, ∀ order, u.op.sortOrder? = some order →
    ∃ kinds, ∀ c ∈ u.inputs, Supplies limits I (order.OfKinds kinds) c

/-- Whether ordered merges have sorts by the same order below them. -/
def MergesSorted (t : PhysicalPlan) : Prop :=
  ∀ u ∈ t.subtrees, ∀ order bounds, u.op = .mergeLimitingSort order bounds →
    ∀ c ∈ u.inputs, ∃ bounds', PlanTree.op c = .limitingSort order bounds'

/-- The columns of the output with the values that the last sort below put in order. -/
def carried (t : PhysicalPlan) : List Column :=
  t.fold fun _ op inputs below => op.carries ((inputs.map columns).headD []) (below.headD [])

theorem carried_node (group : GroupId) (op : Operator) (inputs : List PhysicalPlan) :
    carried (.node group op inputs) =
      op.carries ((inputs.map columns).headD []) ((inputs.map carried).headD []) := by
  simp only [carried, PlanTree.fold_node]
  rfl

theorem traits_node (group : GroupId) (op : Operator) (inputs : List PhysicalPlan) :
    traits (.node group op inputs) = op.traits ((inputs.map traits).headD .empty) := by
  simp only [traits, PlanTree.fold_node]
  rfl

theorem carried_subset_columns (t : PhysicalPlan) : ∀ c ∈ t.carried, c ∈ t.columns := by
  induction t using PlanTree.induct with
  | node group op inputs ih =>
    rw [carried_node, columns_node]
    refine Operator.carries_subset ?_
    cases inputs with
    | nil => exact fun _ hc => nomatch hc
    | cons first others => exact ih first List.mem_cons_self

/-- A sort carries all its keys over. -/
theorem mem_carried_of_sort {group : GroupId} {op : Operator} {inputs : List PhysicalPlan}
    (hvalid : validate (.node group op inputs) = .ok ()) {order : SortOrder}
    (hop : op.sortOrder? = some order) : ∀ key ∈ order, key.1 ∈ carried (.node group op inputs) := by
  intro key hkey
  obtain ⟨harity, hrequired, -⟩ := Operator.check_eq_ok.1 (validate_node.1 hvalid).1
  have hsort : op.requires = order.map (·.1) ∧ op.arity.admits 0 = false ∧
      ∀ input below, op.carries input below = input := by
    cases op <;> cases hop <;> exact ⟨rfl, rfl, fun _ _ => rfl⟩
  obtain ⟨hrequires, hnone, hcarries⟩ := hsort
  rw [carried_node, hcarries]
  cases inputs with
  | nil => exact nomatch harity.symm.trans hnone
  | cons first others =>
    refine Operator.checkRequired_eq_ok.1 hrequired _ rfl key.1 ?_
    rw [hrequires]
    exact List.mem_map_of_mem hkey

/-- What setting up a node consists of, in states with a property that lasts. -/
theorem lower_node_streams (hI : RunState.Lasting I) {group : GroupId} {op : Operator}
    {inputs : List PhysicalPlan} {R : PhysicalPlan → TupleStream → Prop}
    (hworker : ∀ c w g, R c w → R c (w.onWorker g))
    (hlower : ∀ c ∈ inputs, ∀ before w after, I before.run →
      lower limits c before = (.ok w, after) → R c w)
    {before after : LoweringState} (hbefore : I before.run) {v : TupleStream}
    (h : lower limits (.node group op inputs) before = (.ok v, after)) :
    ∃ ts s, List.Forall₂ R inputs ts ∧
      stream limits s op (op.columns ((inputs.map columns).headD [])) (inputs.map PlanTree.group) ts =
        .ok v := by
  obtain ⟨ts, st₁, hts, hv, -⟩ := lower_node_eq_ok h
  refine ⟨ts, st₁.run, (connectAll_eq_ok hworker (fun c hc st st' w hs hw => ?_) (.refl _) hts).1, hv⟩
  have hset := lower_setUp limits false c st
  rw [hw] at hset
  refine ⟨hlower c hc st w st' (hI.recount hbefore hs) hw, ?_⟩
  generalize PhysicalPlan.inline _ _ _ = found at hset
  cases hset with
  | ok _ hcounted => exact hcounted

section

variable {t u : PhysicalPlan} {order : SortOrder} (hvalid : t.validate = .ok ())
  (hkeys : t.KeysOfKinds limits I)

include hvalid hkeys

/-- Tuples of a plan have its columns. -/
theorem keyed (hu : u ∈ t.subtrees) {before after : LoweringState} {v : TupleStream}
    (hbefore : I before.run) (hv : lower limits u before = (.ok v, after)) {last : Option Tuple}
    (h : v.Ascends I (front.OfKinds kinds) order last) :
    v.Ascends I (Tuple.Keyed u.columns kinds front) order last := by
  have hlaid := lower_laid hvalid hu (hkeys.indexes _ hbefore) hv
  refine (h.and (fun _ _ => trivial) v (TupleStream.Meets.supplies v hlaid)).mono ?_ List.prefix_rfl
  exact fun w hw => ⟨hw.2, hw.1⟩

theorem Supplies.keyed (hu : u ∈ t.subtrees) (h : Supplies limits I (order.OfKinds kinds) u) :
    Supplies limits I (Tuple.Keyed u.columns kinds order) u := by
  intro before v after hbefore hv
  have hsupplied : v.Ascends I (order.OfKinds kinds) [] none :=
    v.ascends_nil_iff.2 (h before v after hbefore hv)
  exact (PhysicalPlan.keyed hvalid hkeys hu hbefore hv hsupplied).supplies

variable {group : GroupId} {op : Operator} {inputs : List PhysicalPlan}

theorem ascends_keeper {first : PhysicalPlan} {others : List PhysicalPlan}
    (hnode : .node group op (first :: others) ∈ t.subtrees) (hop : op.keepsOrder = true)
    (hfirst : first.Ascends limits I kinds front)
    (hcarried : ∀ key ∈ front, key.1 ∈ carried (.node group op (first :: others))) :
    Ascends limits I kinds front (.node group op (first :: others)) := by
  intro before v after hbefore hv
  have hcheck := (validate_node.1 (validate_subtrees hvalid _ hnode)).1
  have harity := (Operator.check_eq_ok.1 hcheck).1
  let R (c : PhysicalPlan) (w : TupleStream) : Prop :=
    (c = first → w.Ascends I (Tuple.Keyed first.columns kinds front) front none) ∧
      ((∃ p, op = .subselect p) → c ∈ others → w.Supplies I fun _ => True)
  have hworker (c : PhysicalPlan) (w : TupleStream) (g : GroupId) (h : R c w) : R c (w.onWorker g) :=
    ⟨fun hc => (h.1 hc).onWorker g w, fun hp hc => (h.2 hp hc).onWorker g⟩
  have hlower (c : PhysicalPlan) (_ : c ∈ first :: others) (before : LoweringState) (w : TupleStream)
      (after : LoweringState) (hbefore : I before.run)
      (hw : lower limits c before = (.ok w, after)) : R c w := by
    refine ⟨?_, ?_⟩
    · rintro rfl
      exact hfirst before w after hbefore hw
    · rintro ⟨p, rfl⟩ hc
      exact hkeys.subqueries _ hnode p rfl c hc before w after hbefore hw
  obtain ⟨ts, s, hts, hstream⟩ := lower_node_streams hkeys.lasting hworker hlower hbefore hv
  cases hts with
  | @cons _ w _ ws hw hws =>
    refine keyed hvalid hkeys hnode hbefore hv
      (.stream hkeys.lasting hop (hw.1 rfl) ?_ ?_ (fun key hkey => ?_) hstream)
    · rintro p rfl x hx
      obtain ⟨c, hc, hx⟩ := exists_mem_of_forall₂ hws hx
      exact hx.2 ⟨p, rfl⟩ hc
    · intro hne
      have hnone : others = [] := by
        have hlength : (first :: others).length = 1 := by
          cases op <;> simp_all [Operator.keepsOrder, Operator.arity, Operator.shape, Arity.admits]
        exact List.eq_nil_of_length_eq_zero (Nat.succ.inj hlength)
      subst hnone
      exact List.forall₂_nil_left_iff.1 hws
    · have hkey := hcarried key hkey
      have hout := carried_subset_columns _ _ hkey
      rw [carried_node] at hkey
      rw [columns_node] at hout
      exact ⟨carried_subset_columns first _ (Operator.mem_of_carries hop hkey), hout⟩

/-- A sort gives its input in order. -/
theorem ascends_sort (hnode : .node group op inputs ∈ t.subtrees)
    (hop : op.sortOrder? = some order) (hmerge : ∀ bounds, op ≠ .mergeLimitingSort order bounds) :
    ∃ kinds, Ascends limits I kinds order (.node group op inputs) := by
  obtain ⟨kinds, hinputs⟩ := hkeys.sorts _ hnode order hop
  refine ⟨kinds, fun before v after hbefore hv => ?_⟩
  have hcheck := (validate_node.1 (validate_subtrees hvalid _ hnode)).1
  have harity := (Operator.check_eq_ok.1 hcheck).1
  obtain ⟨input, rfl⟩ : ∃ input, inputs = [input] := by
    refine List.length_eq_one_iff.1 ?_
    cases op <;>
      simp_all [Operator.sortOrder?, Operator.arity, Operator.shape, Arity.admits]
  have hinput : input ∈ t.subtrees :=
    subtrees_subset hnode _ (mem_subtrees_of_input (List.mem_singleton_self _))
  have hbelow := (hinputs input (List.mem_singleton_self _)).keyed hvalid hkeys hinput
  obtain ⟨ts, s, hts, hstream⟩ := lower_node_streams hkeys.lasting
    (R := fun c w => c = input → w.Supplies I (Tuple.Keyed input.columns kinds order))
    (fun _ _ g h hc => (h hc).onWorker g)
    (fun c _ before w after hbefore hw hc => hbelow before w after hbefore (hc ▸ hw)) hbefore hv
  cases hts with
  | @cons _ w _ _ hw hrest =>
    cases hrest
    rw [columns_node]
    cases op with
    | sort keys =>
      cases hop
      cases hstream
      exact .sort hkeys.lasting (hw rfl)
    | externalSort keys chunk =>
      cases hop
      cases hstream
      exact .externalSort hkeys.lasting chunk limits.canSpill (hw rfl)
    | limitingSort keys bounds =>
      cases hop
      cases hstream
      exact .limitingSort hkeys.lasting bounds (hw rfl)
    | mergeLimitingSort keys bounds =>
      cases hop
      exact absurd rfl (hmerge bounds)
    | _ => cases hop

/-- An ordered merge gives its inputs in order, if they are so each. -/
theorem ascends_merge {bounds : RowLimit}
    (hnode : .node group (.mergeLimitingSort order bounds) inputs ∈ t.subtrees)
    (hinputs : ∀ c ∈ inputs, ∃ kinds, Ascends limits I kinds order c) :
    ∃ kinds, Ascends limits I kinds order (.node group (.mergeLimitingSort order bounds) inputs) := by
  obtain ⟨kinds, hsupplied⟩ := hkeys.sorts _ hnode order rfl
  refine ⟨kinds, fun before v after hbefore hv => ?_⟩
  have hcheck := (validate_node.1 (validate_subtrees hvalid _ hnode)).1
  rw [columns_node]
  have hlower (c : PhysicalPlan) (hc : c ∈ inputs) (before : LoweringState) (w : TupleStream)
      (after : LoweringState) (hbefore : I before.run) (hw : lower limits c before = (.ok w, after)) :
      w.Ascends I (Tuple.Keyed ((inputs.map columns).headD []) kinds order) order none := by
    obtain ⟨kinds', hascends⟩ := hinputs c hc
    have hboth := (hascends before w after hbefore hw).and (fun _ hs => hs) w
      (hsupplied c hc before w after hbefore hw)
    refine hboth.mono (fun u hu => ?_) List.prefix_rfl
    exact ⟨columns_of_check hcheck (fun _ he => nomatch he) hc ▸ hu.1.laid, hu.2⟩
  obtain ⟨ts, s, hts, hstream⟩ := lower_node_streams hkeys.lasting
    (R := fun _ w => w.Ascends I (Tuple.Keyed ((inputs.map columns).headD []) kinds order) order none)
    (fun _ w g h => h.onWorker g w) hlower hbefore hv
  cases hstream
  refine (TupleStream.Ascends.mergeSorted (fun u w hu hw => ?_) fun w hw => ?_).limit bounds
  · exact SortOrder.compareTuples_eq hu.laid hw.laid fun _ hkey => hu.kinds.sameKind hw.kinds hkey
  · obtain ⟨_, -, hw⟩ := exists_mem_of_forall₂ hts hw
    exact hw

/-- The streams of a plan with an order trait ascend by the keys that are carried over. -/
theorem ascends_of_order (hmerges : t.MergesSorted) (u : PhysicalPlan) : u ∈ t.subtrees →
    ∃ kinds, ∀ order front, u.traits.order? = some order → front <+: order →
      (∀ key ∈ front, key.1 ∈ u.carried) → u.Ascends limits I kinds front := by
  induction u using PlanTree.induct with
  | node group op inputs ih =>
    intro hnode
    have hbelow (c : PhysicalPlan) (hc : c ∈ inputs) : c ∈ t.subtrees :=
      subtrees_subset hnode _ (mem_subtrees_of_input hc)
    -- A keeper has the order of its first input; all other orders are those of sorts and merges.
    simp only [traits_node, Operator.order?_traits]
    by_cases hop : op.keepsOrder = true
    · simp only [hop, if_true]
      cases inputs with
      | nil => exact ⟨fun _ => "", fun order front horder => nomatch horder⟩
      | cons first others =>
        obtain ⟨kinds, hfirst⟩ := ih first List.mem_cons_self (hbelow first List.mem_cons_self)
        refine ⟨kinds, fun order front horder hfront hcarried => ?_⟩
        refine ascends_keeper hvalid hkeys hnode hop (hfirst order front horder hfront ?_) hcarried
        intro key hkey
        have hcarried := hcarried key hkey
        rw [carried_node] at hcarried
        exact Operator.mem_of_carries hop hcarried
    · simp only [hop, Bool.false_eq_true, if_false]
      cases hsort : op.sortOrder? with
      | none => exact ⟨fun _ => "", fun order front horder => nomatch horder⟩
      | some order =>
        suffices h : ∃ kinds, Ascends limits I kinds order (.node group op inputs) by
          obtain ⟨kinds, h⟩ := h
          refine ⟨kinds, ?_⟩
          rintro _ front ⟨⟩ hfront _ before v after hbefore hv
          refine (h before v after hbefore hv).mono (fun u hu => ⟨hu.laid, ?_⟩) hfront
          exact hu.kinds.mono fun key hkey => hfront.subset hkey
        by_cases hmerge : ∃ bounds, op = .mergeLimitingSort order bounds
        · obtain ⟨bounds, rfl⟩ := hmerge
          refine ascends_merge hvalid hkeys hnode fun c hc => ?_
          obtain ⟨kinds, hascends⟩ := ih c hc (hbelow c hc)
          obtain ⟨bounds', hc'⟩ := hmerges _ hnode order bounds rfl c hc
          obtain ⟨g, op', below⟩ := c
          obtain rfl : op' = .limitingSort order bounds' := hc'
          refine ⟨kinds, hascends order order ?_ List.prefix_rfl fun key hkey => ?_⟩
          · rw [traits_node, Operator.order?_traits]
            rfl
          · have hvalid' := validate_subtrees hvalid _ (hbelow _ hc)
            exact mem_carried_of_sort hvalid' rfl key hkey
        · exact ascends_sort hvalid hkeys hnode hsort fun bounds he => hmerge ⟨bounds, he⟩

end

end PhysicalPlan

end Streams

/-! ## Planned trees -/

/-- Whether an operator merges sorted inputs. -/
def Operator.isOrderedMerge : Operator → Bool
  | mergeLimitingSort .. => true
  | _ => false

/-- No rule puts an ordered merge in the place of other operators. -/
theorem Rule.kept_isOrderedMerge (scope : RewriteScope) :
    Kept scope (·.isOrderedMerge = false) where
  count _ := rfl
  lookUp _ _ _ _ := rfl
  fetch _ _ := rfl
  select _ := rfl
  fuse _ _ _ := rfl
  spill _ _ := rfl
  vectorise _ _ := rfl

theorem Operator.isOrderedMerge_restrict (op : Operator) (i p : Nat) :
    (op.restrict i p).isOrderedMerge = op.isOrderedMerge := by
  cases op <;> rfl

theorem LogicalPlan.every_isOrderedMerge (l : LogicalPlan) :
    l.implement.Every (·.isOrderedMerge = false) := by
  induction l using PlanTree.induct with
  | node group op inputs ih =>
    rw [implement_node, PhysicalPlan.every_node]
    refine ⟨?_, List.forall_mem_map.2 ih⟩
    cases op <;> rfl

namespace PhysicalPlan

variable {t u : PhysicalPlan}

theorem mergesSorted_node {group : GroupId} {op : Operator} {inputs : List PhysicalPlan} :
    MergesSorted (.node group op inputs) ↔
      (∀ order bounds, op = .mergeLimitingSort order bounds →
        ∀ c ∈ inputs, ∃ bounds', PlanTree.op c = .limitingSort order bounds') ∧
      ∀ c ∈ inputs, MergesSorted c :=
  forall_subtrees_node

theorem mergesSorted_of_every (h : t.Every (·.isOrderedMerge = false)) : t.MergesSorted := by
  intro u hu order bounds hop
  have hnone := h u hu
  rw [hop] at hnone
  cases hnone

/-- A plan that is split has sorts below its ordered merge. -/
theorem mergesSorted_of_split {p : Nat} {next : GroupId}
    (h : Somewhere (fun t u => splitHere? t p next = some u) t u)
    (ht : t.Every (·.isOrderedMerge = false)) : u.MergesSorted := by
  have hkept {op : Operator} (i p : Nat) (h : op.isOrderedMerge = false) :
      (op.restrict i p).isOrderedMerge = false := (op.isOrderedMerge_restrict i p).trans h
  induction h with
  | @here t u h =>
    rcases splitHere?_cases h with ⟨-, rfl⟩ | ⟨group, order, bounds, input, others, rfl, -, rfl⟩
    · refine mergesSorted_of_every (every_node.2 ⟨rfl, forall_mem_parts fun i g => ?_⟩)
      exact every_part hkept ht i p g
    · have hinput := (every_node.1 ht).2 input List.mem_cons_self
      refine mergesSorted_node.2 ⟨?_, List.forall_mem_map.2 (forall_mem_parts fun i g => ?_)⟩
      · rintro _ _ ⟨⟩
        exact List.forall_mem_map.2 fun c _ => ⟨_, rfl⟩
      · refine mergesSorted_of_every (every_node.2 ⟨rfl, List.forall_mem_singleton.2 ?_⟩)
        exact every_part hkept hinput i p g
  | inside group op before after _ ih =>
    obtain ⟨hop, hinputs⟩ := every_node.1 ht
    rw [List.forall_mem_append, List.forall_mem_cons] at hinputs
    obtain ⟨hbefore, hinput, hafter⟩ := hinputs
    refine mergesSorted_node.2 ⟨fun order bounds he => ?_, ?_⟩
    · subst he
      cases hop
    · rw [List.forall_mem_append, List.forall_mem_cons]
      exact ⟨fun c hc => mergesSorted_of_every (hbefore c hc), ih hinput,
        fun c hc => mergesSorted_of_every (hafter c hc)⟩

end PhysicalPlan

theorem Planning.Makes.mergesSorted {scope : RewriteScope} {t u : PhysicalPlan}
    (h : Makes scope Rule.all t u) (ht : t.Every (·.isOrderedMerge = false)) : u.MergesSorted := by
  cases h with
  | whole hfires =>
    exact PhysicalPlan.mergesSorted_of_every
      (Fires.every_of_many (Rule.kept_isOrderedMerge scope) hfires ht)
  | split hfires hsplit =>
    exact PhysicalPlan.mergesSorted_of_split (PhysicalPlan.somewhere_of_tryPartition hsplit).2
      (Fires.every_of_many (Rule.kept_isOrderedMerge scope) hfires ht)

/-! ## Typed plans -/

/-- The kind of the values of a type. -/
def ColumnType.kindName : ColumnType → String
  | boolean => "bool"
  | long => "long"
  | float => "float"
  | double => "double"
  | text => "string"
  | floatVector _ => "float_vector"
  | doubleVector _ => "double_vector"

theorem ColumnType.kindName_of_accepts {type : ColumnType} {v : Value}
    (h : type.accepts v = true) : v.isNull = true ∨ v.kindName = type.kindName := by
  cases type <;> cases v <;> simp_all [accepts, Value.isNull, Value.kindName, kindName]

theorem Tuple.Honours.ofKinds {cs : List Column} {u : Tuple} (h : u.Honours cs)
    (order : SortOrder) : order.OfKinds (fun c => c.type.kindName) u := by
  intro key _
  have hread := h.laid.getOrNull_eq key.1
  obtain ⟨found, hfound, hvalue⟩ := Except.map_eq_ok.1 hread
  cases found with
  | none =>
    rw [← hvalue]
    exact .inl rfl
  | some v =>
    have haccepts := h.accepts hfound
    rw [Column.accepts, Bool.and_eq_true] at haccepts
    rw [← hvalue]
    exact ColumnType.kindName_of_accepts haccepts.1

/-- The keys of typed plans are of the kinds of their columns. -/
theorem PhysicalPlan.WellTyped.keysOfKinds {x : Store} {slots : List (Option Value)}
    {t : PhysicalPlan} (h : t.WellTyped x slots) (limits : RunLimits) :
    t.KeysOfKinds limits (RunState.Over x slots) where
  lasting := RunState.lasting_over x slots
  indexes s hs u hu i table p hop := by
    have htyped := h.operators u hu
    rw [hop] at htyped
    obtain ⟨y, hy, hcolumn⟩ := htyped
    rw [Store.index_of_unread hs.1, Store.index, hy]
    exact hcolumn
  subqueries u hu p _ c hc before v after hbefore hv := by
    have hc : c ∈ t.subtrees := subtrees_subset hu c (mem_subtrees_of_input (List.mem_of_mem_tail hc))
    exact ((h.subtree hc).supplies limits hbefore hv).1.mono fun _ _ => trivial
  sorts u hu order _ := by
    refine ⟨fun c => c.type.kindName, fun c hc before v after hbefore hv => ?_⟩
    have hc : c ∈ t.subtrees := subtrees_subset hu c (mem_subtrees_of_input hc)
    exact ((h.subtree hc).supplies limits hbefore hv).1.mono fun w hw => hw.ofKinds order

/-! ## Orders of planned trees -/

namespace LogicalPlan

open Lowering

variable {scope : RewriteScope} {l : LogicalPlan} {t u : PhysicalPlan}

/-- The tuples of a node with an order trait are in order by the keys that are carried over, up to the
first one that is not. They are in the declared order if the later keys make no difference. -/
theorem declared_order_emitted (hl : l.validate = .ok ())
    (ht : Planning.Makes scope Rule.all l.implement t)
    {limits : RunLimits} {I : RunState → Prop} (hkeys : t.KeysOfKinds limits I)
    (hu : u ∈ t.subtrees) {order : SortOrder} (horder : u.traits.order? = some order)
    {before after : LoweringState} (hbefore : I before.run) {v : TupleStream}
    (hv : lower limits u before = (.ok v, after)) {history : List RunState}
    (hhistory : ∀ s ∈ history, I s) :
    (v.emitted history).Pairwise (order.front u.carried).NotGreater ∧
      (order.Survives u.carried u.columns → (v.emitted history).Pairwise order.NotGreater) := by
  obtain ⟨kinds, hascends⟩ := PhysicalPlan.ascends_of_order (ht.conforms hl).valid hkeys
    (ht.mergesSorted l.every_isOrderedMerge) u hu
  have hstream := hascends order (order.front u.carried) horder (order.front_prefix u.carried)
    SortOrder.mem_carried_of_front before v after hbefore hv
  obtain ⟨hgiven, hsorted⟩ := hstream.emitted hhistory
  have hpairs := List.Pairwise.and_mem.1 hsorted
  refine ⟨hpairs.imp fun ⟨ha, hb, hle⟩ => ?_, fun hsurvives => hpairs.imp fun ⟨ha, hb, hle⟩ => ?_⟩
  · exact SortOrder.notGreater_of_keyed (hgiven _ ha).1 (hgiven _ hb).1 hle
  · exact hsurvives.notGreater (hgiven _ ha).1 (hgiven _ hb).1 hle

end LogicalPlan

namespace Dropped

def x : Column := ⟨"t.x", .long, true⟩

def y : Column := ⟨"t.y", .long, true⟩

def row (id : RowId) (a b : Int64) : RowId × List Value := (id, [.long a, .long b])

def table : Table := ⟨"t", [x, y], [row 0 1 1, row 1 1 2, row 2 2 1], 3, [], 0⟩

theorem table_reachable : table.Reachable := by
  have hempty := Table.Reachable.empty "t" [x, y]
  have hfirst : (Table.empty "t" [x, y]).insert [x, y] [.long 1, .long 1] =
      .ok (0, ⟨"t", [x, y], [row 0 1 1], 1, [], 0⟩) := by decide +kernel
  have hsecond : (⟨"t", [x, y], [row 0 1 1], 1, [], 0⟩ : Table).insert [x, y] [.long 1, .long 2] =
      .ok (1, ⟨"t", [x, y], [row 0 1 1, row 1 1 2], 2, [], 0⟩) := by decide +kernel
  have hthird : (⟨"t", [x, y], [row 0 1 1, row 1 1 2], 2, [], 0⟩ : Table).insert [x, y]
      [.long 2, .long 1] = .ok (2, table) := by decide +kernel
  exact .insert (.insert (.insert hempty (by decide) hfirst) (by decide) hsecond) (by decide) hthird

def store : Store := ⟨[table]⟩

def handle : TableHandle := store.handle 0

def order : SortOrder := [(x, .ascending), (y, .ascending)]

def scope : RewriteScope := ⟨store, .empty, .standard, .standard, .none⟩

def limits : RunLimits := ⟨0, 0, true⟩

def start : LoweringState := ⟨⟨store, .empty, .empty, 0⟩, 0⟩

def sorted : LogicalPlan := .node 0 (.sort order) [.node 0 (.scan handle [x, y]) []]

/-- The least rows by both columns, of which the first one is kept. -/
def least : LogicalPlan :=
  .node 0 (.projection (.select [x])) [.node 0 (.limit ⟨0, 2⟩) [sorted]]

/-- The limit is part of the sort. -/
def fused : PhysicalPlan :=
  .node 0 (.projection (.select [x]))
    [.node 0 (.limitingSort order ⟨0, 2⟩) [.node 0 (.scan handle [x, y] 0 1) []]]

/-- Each part is sorted, the parts are merged, and the first column is kept. -/
def merged : PhysicalPlan :=
  let part (i : Nat) (g : GroupId) : PhysicalPlan :=
    .node g (.limitingSort order ⟨0, 2⟩) [.node g (.scan handle [x, y] i 2) []]
  .node 0 (.projection (.select [x])) [.node 0 (.mergeLimitingSort order ⟨0, 2⟩) [part 0 0, part 1 1]]

/-- All rows by both columns, of which the second one is kept. -/
def second : LogicalPlan := .node 0 (.projection (.select [y])) [sorted]

def given (id : RowId) (n : Int64) : Tuple := ⟨id, [y], [.long n]⟩

def rows : List Tuple := table.rows.map fun r => ⟨r.1, [x, y], r.2⟩

/-- The rows are stored in order. -/
theorem sortTuples_rows : order.sortTuples rows = .ok rows := by
  rw [SortOrder.sortTuples, List.mergeSort_of_pairwise (by decide +kernel)]
  rfl

theorem emitted_select {t : TupleStream} {s s' : RunState} (h : t.collect s = (.ok rows, s')) :
    ((t.sort order).project (.select [y]) [y]).emitted (List.replicate 3 s) =
      [given 0 1, given 1 2, given 2 1] := by
  have hsort : (t.sort order).pull s = (TupleStream.ofList rows).pull (s'.count .sort) := by
    simp only [TupleStream.sort, TupleStream.deferred, TupleStream.pull_of, h, TupleStream.sorted,
      sortTuples_rows]
    rfl
  have hselect : ((t.sort order).project (.select [y]) [y]).pull s =
      ((TupleStream.ofList rows).project (.select [y]) [y]).pull (s'.count .sort) := by
    refine (TupleStream.pull_steady _ () _ s).trans ?_
    rw [hsort]
    rfl
  rw [List.replicate_succ, TupleStream.emitted, hselect]
  rfl

open PhysicalPlan in
theorem sorted_typed : sorted.implement.Every (Operator.WellTyped store []) :=
  every_node.2 ⟨rfl, List.forall_mem_singleton.2 (every_node.2 ⟨rfl, List.forall_mem_nil _⟩)⟩

theorem sound (n : Nat) : (store.table n).Sound :=
  Store.table_sound (List.forall_mem_singleton.2 table_reachable) n

end Dropped

open Dropped Lowering PhysicalPlan in
theorem LogicalPlan.declared_order_emitted_least : ∃ v after,
    lower limits merged start = (.ok v, after) ∧ merged.traits.order? = some order ∧
      (v.emitted (List.replicate 3 start.run)).map (·.values) = [[.long 1], [.long 1]] ∧
      (v.emitted (List.replicate 3 start.run)).Pairwise (order.front merged.carried).NotGreater ∧
      (v.emitted (List.replicate 3 start.run)).Pairwise order.NotGreater := by
  have hfused : Fires scope Rule.all least.implement fused :=
    .inside 0 _ [] [] (.here ⟨.limitingSortMerge, by decide, rfl⟩)
  have hsplit : fused.tryPartition 2 1 = some (merged, 2) := rfl
  have hmade : Planning.Makes scope Rule.all least.implement merged :=
    .split (.single hfused) hsplit
  have hleast : least.implement.Every (Operator.WellTyped store []) :=
    every_node.2 ⟨rfl, List.forall_mem_singleton.2
      (every_node.2 ⟨rfl, List.forall_mem_singleton.2 sorted_typed⟩)⟩
  have htyped : merged.WellTyped store [] :=
    ⟨by decide, hmade.every (Operator.kept_wellTyped fun i y hy => ⟨y, hy, rfl⟩)
      Operator.splitKept_wellTyped hleast, sound⟩
  have hhistory : ∀ s ∈ List.replicate 3 start.run, s.Over store [] := by
    intro s hs
    rw [List.eq_of_mem_replicate hs]
    exact ⟨rfl, rfl⟩
  have horder : merged.traits.order? = some order := rfl
  have hbefore : start.run.Over store [] := ⟨rfl, rfl⟩
  have hordered {v : TupleStream} {after : LoweringState}
      (hv : lower limits merged start = (.ok v, after)) :=
    declared_order_emitted (by decide) hmade (htyped.keysOfKinds limits) (mem_subtrees_self merged)
      horder hbefore hv hhistory
  exact ⟨_, _, rfl, rfl, rfl, (hordered rfl).1, (hordered rfl).2 (by decide)⟩

open Dropped Lowering PhysicalPlan in
/-- Rows that are sorted by both columns are not in order by the second one, which is all that is left
of them. -/
theorem LogicalPlan.declared_order_lost : second.validate = .ok () ∧
    (∃ out, RewriteOutcome.rewrite scope Rule.all second.implement = pure out ∧
      out.plan = second.implement) ∧
    second.implement.KeysOfKinds limits (RunState.Over store []) ∧
    second.implement.traits.order? = some order ∧
    ∃ v after, lower limits second.implement start = (.ok v, after) ∧
      v.emitted (List.replicate 3 start.run) = [given 0 1, given 1 2, given 2 1] ∧
      order.compareTuples (given 1 2) (given 2 1) = .ok .gt := by
  have hrests : second.implement.Rests scope Rule.all :=
    rests_node.2 ⟨fun r _ => by cases r <;> rfl, List.forall_mem_singleton.2
      (rests_node.2 ⟨fun r _ => by cases r <;> rfl, List.forall_mem_singleton.2
        (rests_node.2 ⟨fun r _ => by cases r <;> rfl, List.forall_mem_nil _⟩)⟩)⟩
  have hrewrite : RewriteOutcome.rewrite scope Rule.all second.implement =
      pure ⟨second.implement, 1, []⟩ := RewriteOutcome.proceed_succ (Rewritten.pass_of_rests hrests)
  have hsecond : second.implement.Every (Operator.WellTyped store []) :=
    every_node.2 ⟨rfl, List.forall_mem_singleton.2 sorted_typed⟩
  have htyped : second.implement.WellTyped store [] := ⟨by decide, hsecond, sound⟩
  exact ⟨by decide, ⟨_, hrewrite, rfl⟩, htyped.keysOfKinds limits, rfl, _, _, rfl, emitted_select rfl,
    rfl⟩

end QueryEngine
