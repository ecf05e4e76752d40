import QueryEngine.Proofs.Operators

/-!
# Streams of plans

A plan is set up node by node; some of its inputs run on workers. `PhysicalPlan.inline` is the
stream that a plan would have without any worker. The stream that is set up is simulated by it, so
that what a run comes to does not depend on the workers.
-/

set_option autoImplicit false

namespace QueryEngine

/-- Whether an operator changes a table. -/
def Operator.writes : Operator → Bool
  | insert .. => true
  | update .. => true
  | delete _ => true
  | _ => false

/-- The groups of inputs that an operator tells apart: those of sub-queries. -/
def Operator.readGroups (op : Operator) (groups : List GroupId) : List GroupId :=
  match op with
  | subselect _ => groups.tail
  | _ => []

/-- A property of tuples by the columns of the stream that they are on, which every operator keeps. -/
structure Layout (L : List Column → Tuple → Prop) : Prop where
  scan : ∀ {cs row vs}, vs.length = cs.length → L cs ⟨row, cs, vs⟩
  extend : ∀ {cs u v} (c : Column), L cs u → L (cs ++ [c]) (u.extend (cs ++ [c]) v)
  relabel : ∀ {cs u}, L cs u → L cs { u with columns := cs }
  same : ∀ {cs u}, L cs u → L u.columns u

namespace Layout

variable {L : List Column → Tuple → Prop} (hL : Layout L)
include hL

theorem project {cs : List Column} {u v : Tuple} (h : u.project cs = .ok v) : L cs v := by
  unfold Tuple.project at h
  cases hm : cs.mapM u.getOrNull with
  | error c => simp [hm, Except.map] at h
  | ok vs =>
    simp only [hm, Except.map, Except.ok.injEq] at h
    subst h
    exact hL.scan (Except.mapM_length hm)

theorem complete {cs : List Column} {u found v : Tuple}
    (h : TupleStream.complete cs u found = .ok v) : L cs v := by
  obtain ⟨vs, hvalues, rfl⟩ := Except.map_eq_ok.1 h
  exact hL.scan (Except.mapM_length hvalues)

theorem align {cs ds : List Column} {u v : Tuple} (hu : L ds u)
    (h : TupleStream.align cs u = .ok v) : L cs v := by
  unfold TupleStream.align at h
  split at h
  · rename_i he
    cases h
    exact he ▸ hL.same hu
  · exact hL.project h

end Layout

namespace Lowering

variable {B : Bond} {L : List Column → Tuple → Prop}

/-- The inputs of an operator simulate each other. Only the first input of a sub-select has to fit
the columns `input`. -/
def Inputs (B : Bond) (L : List Column → Tuple → Prop) (input : List Column) (op : Operator)
    (ts ts' : List TupleStream) : Prop :=
  match op with
  | .subselect _ => (ts = [] ∧ ts' = []) ∨ ∃ t t' rest rest' Q, ts = t :: rest ∧ ts' = t' :: rest' ∧
      t.Sim B (L input) t' ∧ List.Forall₂ (TupleStream.Sim B Q) rest rest'
  | _ => List.Forall₂ (TupleStream.Sim B (L input)) ts ts'

theorem single_both {P : Tuple → Prop} (op : Operator) {ts ts' : List TupleStream}
    (h : List.Forall₂ (TupleStream.Sim B P) ts ts') :
    Except.Both (TupleStream.Sim B P) (single op ts) (single op ts') := by
  unfold single
  induction h with
  | nil => exact .error _
  | cons ht hrest ih =>
    cases hrest with
    | nil => exact .ok ht
    | cons hu hrest => simpa only [List.getLast?_cons_cons] using ih

/-- What the rows of a scan have to give. The places of the columns are found when the scan is set up
in the state `s`. -/
def ScanSuits (B : Bond) (L : List Column → Tuple → Prop) (s : RunState) (t : TableHandle)
    (cs : List Column) : Prop :=
  ∀ places, (t.table s.store).positions cs = .ok places → ∀ x x', B.state x x' →
    ∀ row ∈ (x.table t).rows, L cs ⟨row.1, cs, Table.valuesAt row.2 places⟩

/-- What an operator has to give for its tuples to have the property `L`, if those of its inputs
have it. -/
def Suits (B : Bond) (L : List Column → Tuple → Prop) (s : RunState) (input : List Column)
    (op : Operator) : Prop :=
  match op with
  | .scan t cs _ _ => ScanSuits B L s t cs
  | .sample t cs _ _ => ScanSuits B L s t cs
  | .rowCount _ out => ∀ n, L [out] ⟨syntheticRow, [out], [.long n]⟩
  | .indexScan x _ p =>
    ∀ us, (s.store.index x).filter p s.bindings = .ok us → ∀ u ∈ us, L [x.column] u
  | .function f arguments out => ∀ x x', B.state x x' → ∀ u v, L input u →
    (x'.bindings.resolveEach (some u) arguments).bind f.invoke = .ok v →
      L (input ++ [out]) (u.extend (input ++ [out]) v)
  | .fetch t cs =>
    (∀ u v, L input u → TupleStream.Lacks cs u [] → u.project (op.columns input) = .ok v →
      L (op.columns input) v) ∧
    ∀ x x', B.state x x' → ∀ u v missing found table, L input u →
      TupleStream.Lacks cs u missing → (x.table t).read u.row missing = .ok (some found, table) →
        TupleStream.complete (op.columns input) u found = .ok v → L (op.columns input) v
  | .projection p =>
    (p.isAggregate = true → ∀ v, p.Yields (L input) v → L p.columns ⟨syntheticRow, p.columns, [v]⟩) ∧
    (p.isAggregate = false → ∀ u v, L input u → u.project p.columns = .ok v → L p.columns v)
  | .externalSort .. => ∀ u, L input u → L input { u with columns := input }
  | .merge => ∀ u v, L input u → TupleStream.align input u = .ok v → L input v
  | .union _ => ∀ u v, L input u → TupleStream.align input u = .ok v → L input v
  | .intersect => ∀ u v, L input u → TupleStream.align input u = .ok v → L input v
  | _ => True

theorem suits_of_layout (hL : Layout L) {s : RunState} {op : Operator}
    (hindex : ∀ x h p, op = .indexScan x h p →
      ∀ row v, L [x.column] ⟨row, [(s.store.index x).column], [v]⟩) (input : List Column) :
    Suits B L s input op := by
  have hscan (t : TableHandle) (cs : List Column) : ScanSuits B L s t cs :=
    fun _ hplaces _ _ _ row _ => hL.scan (by simp [Table.valuesAt, Except.mapM_length hplaces])
  have halign (u v : Tuple) (hu : L input u) (hv : TupleStream.align input u = .ok v) : L input v :=
    hL.align hu hv
  cases op with
  | scan t cs i n => exact hscan t cs
  | sample t cs p seed => exact hscan t cs
  | rowCount t out => exact fun n => hL.scan rfl
  | indexScan x t p =>
    intro us hus u hu
    obtain ⟨keys, _, rfl⟩ := Except.map_eq_ok.1 hus
    obtain ⟨key, _, hu⟩ := List.mem_flatMap.1 (List.mem_mergeSort.1 hu)
    obtain ⟨row, _, rfl⟩ := List.mem_map.1 hu
    exact hindex x t p rfl row key
  | function f arguments out => exact fun _ _ _ u v hu _ => hL.extend out hu
  | fetch t cs =>
    exact ⟨fun _ _ _ _ hv => hL.project hv, fun _ _ _ _ _ _ _ _ _ _ _ hv => hL.complete hv⟩
  | projection p =>
    refine ⟨fun hp v _ => ?_, fun _ _ _ _ hv => hL.project hv⟩
    cases p with
    | select cs => cases hp
    | _ => exact hL.scan rfl
  | externalSort order chunk => exact fun _ hu => hL.relabel hu
  | merge => exact halign
  | union distinct => exact halign
  | intersect => exact halign
  | _ => trivial

/-- The streams of an operator over inputs that simulate each other do so too. -/
theorem stream_sim {sees : Groups} (hB : B.FaithfulTo sees) {limits limits' : RunLimits}
    (hspill : limits.canSpill = limits'.canSpill ∨ limits.canSpill = false ∧ B.excuses .spill)
    {op : Operator} (hsees : ∀ g ∈ op.bindings.flatMap Binding.groups, sees g)
    (hwrite : op.writes = true → B.Exact) {s s' : RunState}
    (hs : B.state s s') {input : List Column} (hop : Suits B L s' input op) {groups : List GroupId}
    {ts ts' : List TupleStream} (h : Inputs B L input op ts ts') :
    Except.Both (TupleStream.Sim B (L (op.columns input)))
      (stream limits s op (op.columns input) groups ts)
      (stream limits' s' op (op.columns input) groups ts') := by
  have hscan (t : TableHandle) (cs : List Column) (i n : Nat) (hsuits : ScanSuits B L s' t cs) :
      Except.Both (TupleStream.Sim B (L cs)) (TupleStream.scan t s.store cs i n)
        (TupleStream.scan t s'.store cs i n) := by
    have he : (t.table s.store).scan cs i n = (t.table s'.store).scan cs i n := hB.scan t cs i n hs
    unfold TupleStream.scan
    rw [he]
    cases hc : (t.table s'.store).scan cs i n with
    | error e => exact .error _
    | ok c =>
      have hP : ∀ x x', B.state x x' → ∀ row ∈ (x.table t).rows,
          L cs ⟨row.1, c.columns, Table.valuesAt row.2 c.places⟩ := by
        unfold Table.scan at hc
        split at hc
        · cases hc
        · cases hp : (t.table s'.store).positions cs with
          | error e => simp [hp, bind, Except.bind] at hc
          | ok places =>
            simp only [hp, bind, Except.bind, pure, Except.pure, Except.ok.injEq] at hc
            subst hc
            exact hsuits places hp
      cases t.faults.scanFailure with
      | none => exact .ok (.ofCursor hB t _ hP)
      | some failure => exact .ok (.failingAfter hB t _ _ hP _)
  cases op with
  | scan t cs i n => exact hscan t cs i n hop
  | sample t cs p seed => exact (hscan t cs 0 1 hop).map fun _ _ ht => ht.sample p seed
  | rowCount t out => exact .ok (.rowCount hB t hop)
  | indexScan x t p =>
    simp only [stream, hB.index x hs, HashIndex.filter_agreeOn (hB.bindings hs)]
    cases hf : (s'.store.index x).filter p s'.bindings with
    | error f => exact .error f
    | ok rows => exact .ok (.ofList (hop rows hf))
  | filter p => exact (single_both _ h).map fun _ _ ht => ht.filter hB p hsees
  | subselect p =>
    rcases h with ⟨rfl, rfl⟩ | ⟨t, t', rest, rest', Q, rfl, rfl, ht, hrest⟩
    · exact .ok (.afterOthers_nil _ _ _ _)
    · exact .ok (.subselect hB p hsees _ ht hrest)
  | function f arguments out =>
    exact (single_both _ h).map fun _ _ ht => ht.apply hB f arguments hsees hop
  | fetch t cs => exact (single_both _ h).map fun _ _ ht => ht.fetch hB t cs hop.1 hop.2
  | projection p => exact (single_both _ h).map fun _ _ ht => ht.project p hop.1 hop.2
  | sort order => exact (single_both _ h).map fun _ _ ht => ht.sort hB order
  | externalSort order chunk =>
    exact (single_both _ h).map fun _ _ ht => ht.externalSort hB order hop hspill chunk
  | limitingSort order bounds =>
    exact (single_both _ h).map fun _ _ ht => ht.limitingSort (hB.count .sort) order bounds
  | limit bounds => exact (single_both _ h).map fun _ _ ht => ht.limit bounds
  | merge => exact .ok (.merge hop h)
  | mergeLimitingSort order bounds =>
    exact .ok (TupleStream.Sim.limit bounds (.mergeSorted h))
  | union distinct => exact .ok (.union distinct hop h)
  | intersect => exact .ok (.intersect hop h)
  | insert t values => exact .ok (.insert hB (hwrite rfl) t values hsees)
  | update t values =>
    exact (single_both _ h).map fun _ _ ht => ht.update hB (hwrite rfl) t values hsees
  | delete t => exact (single_both _ h).map fun _ _ ht => ht.delete (hwrite rfl) t

theorem stream_both {sees : Groups} (hB : B.FaithfulTo sees) (hL : Layout L)
    {limits limits' : RunLimits}
    (hspill : limits.canSpill = limits'.canSpill ∨ limits.canSpill = false ∧ B.excuses .spill)
    {op : Operator} (hsees : ∀ g ∈ op.bindings.flatMap Binding.groups, sees g)
    (hwrite : op.writes = true → B.Exact) {s s' : RunState} (hs : B.state s s')
    (hindex : ∀ x h p, op = .indexScan x h p →
      ∀ row v, L [x.column] ⟨row, [(s'.store.index x).column], [v]⟩)
    {input : List Column} {groups : List GroupId} {ts ts' : List TupleStream}
    (h : Inputs B L input op ts ts') :
    Except.Both (TupleStream.Sim B (L (op.columns input)))
      (stream limits s op (op.columns input) groups ts)
      (stream limits' s' op (op.columns input) groups ts') :=
  stream_sim hB hspill hsees hwrite hs (suits_of_layout hL hindex input) h

end Lowering

/-! ## Checks -/

namespace Operator

theorem missing_head?_eq_none {wanted present : List Column} :
    (missing wanted present).head? = none ↔ ∀ c ∈ wanted, c ∈ present := by
  simp [missing]

theorem checkColumns_eq_ok {t : TableHandle} {cs : List Column} :
    checkColumns t cs = .ok () ↔ ∀ c ∈ cs, c ∈ t.columns := by
  rw [← missing_head?_eq_none, checkColumns]
  cases (missing cs t.columns).head? <;> simp

theorem checkRequired_eq_ok {op : Operator} {inputs : List (List Column)} :
    op.checkRequired inputs = .ok () ↔ ∀ input ∈ inputs.head?, ∀ c ∈ op.requires, c ∈ input := by
  cases inputs with
  | nil => simp [checkRequired]
  | cons input rest =>
    rw [List.head?_cons]
    simp only [Option.mem_def, Option.some.injEq, forall_eq']
    rw [← missing_head?_eq_none, checkRequired, List.head?_cons, Option.bind_some]
    cases (missing op.requires input).head? <;> simp

theorem check_eq_ok {op : Operator} {inputs : List (List Column)} :
    op.check inputs = .ok () ↔ op.arity.admits inputs.length = true ∧
      op.checkRequired inputs = .ok () ∧ op.checkDetails inputs = .ok () := by
  unfold check
  by_cases ha : op.arity.admits inputs.length = true
  · cases op.checkRequired inputs <;> simp [ha, bind, Except.bind]
  · simp [ha]

end Operator

theorem firstError_eq_ok {ε : Type} {rs : List (Except ε Unit)} :
    firstError rs = .ok () ↔ ∀ r ∈ rs, r = .ok () := by
  induction rs with
  | nil => simp [firstError]
  | cons r rest ih =>
    cases r with
    | error e => simp [firstError]
    | ok _ => simp [firstError, ih]

namespace PhysicalPlan

theorem mem_subtrees_node {group : GroupId} {op : Operator} {inputs : List PhysicalPlan}
    {u : PhysicalPlan} : u ∈ PlanTree.subtrees (.node group op inputs) ↔
      u = .node group op inputs ∨ ∃ t ∈ inputs, u ∈ t.subtrees := by
  rw [PlanTree.subtrees, PlanTree.fold_node, List.mem_cons, List.mem_flatten]
  simp only [List.mem_map, exists_exists_and_eq_and]

theorem mem_subtrees_self (t : PhysicalPlan) : t ∈ t.subtrees := by
  obtain ⟨group, op, inputs⟩ := t
  exact mem_subtrees_node.2 (.inl rfl)

theorem mem_subtrees_of_mem {group : GroupId} {op : Operator} {inputs : List PhysicalPlan}
    {t u : PhysicalPlan} (ht : t ∈ inputs) (hu : u ∈ t.subtrees) :
    u ∈ PlanTree.subtrees (.node group op inputs) :=
  mem_subtrees_node.2 (.inr ⟨t, ht, hu⟩)

theorem mem_subtrees_of_input {t c : PhysicalPlan} (h : c ∈ t.inputs) : c ∈ t.subtrees := by
  obtain ⟨group, op, inputs⟩ := t
  exact mem_subtrees_of_mem h (mem_subtrees_self c)

theorem subtrees_subset {t u : PhysicalPlan} (h : u ∈ t.subtrees) : ∀ v ∈ u.subtrees, v ∈ t.subtrees := by
  induction t using PlanTree.induct with
  | node group op inputs ih =>
    rcases mem_subtrees_node.1 h with rfl | ⟨t, ht, hu⟩
    · exact fun v hv => hv
    · exact fun v hv => mem_subtrees_of_mem ht (ih t ht hu v hv)

/-- What is asked of all of a plan is asked of its root and of all of its inputs. -/
theorem forall_subtrees_node {p : PhysicalPlan → Prop} {group : GroupId} {op : Operator}
    {inputs : List PhysicalPlan} :
    (∀ u ∈ PlanTree.subtrees (.node group op inputs), p u) ↔
      p (.node group op inputs) ∧ ∀ t ∈ inputs, ∀ u ∈ t.subtrees, p u := by
  constructor
  · intro h
    exact ⟨h _ (mem_subtrees_self _), fun t ht u hu => h u (mem_subtrees_of_mem ht hu)⟩
  · rintro ⟨hroot, hinputs⟩ u hu
    rcases mem_subtrees_node.1 hu with rfl | ⟨t, ht, hu⟩
    · exact hroot
    · exact hinputs t ht u hu

/-- What holds of the inputs of a node whenever it holds of the node holds of all of a plan. -/
theorem forall_subtrees {p : PhysicalPlan → Prop}
    (hinputs : ∀ group op inputs, p (.node group op inputs) → ∀ t ∈ inputs, p t)
    {t : PhysicalPlan} (ht : p t) : ∀ u ∈ t.subtrees, p u := by
  induction t using PlanTree.induct with
  | node group op inputs ih =>
    exact forall_subtrees_node.2 ⟨ht, fun c hc => ih c hc (hinputs group op inputs ht c hc)⟩

theorem validate_node {group : GroupId} {op : Operator} {inputs : List PhysicalPlan} :
    validate (.node group op inputs) = .ok () ↔
      op.check (inputs.map columns) = .ok () ∧ ∀ t ∈ inputs, t.validate = .ok () := by
  simp only [validate, PlanTree.fold_node, Except.andThen_eq_ok, firstError_eq_ok,
    List.forall_mem_map]

theorem validate_subtrees {t : PhysicalPlan} (ht : t.validate = .ok ()) :
    ∀ u ∈ t.subtrees, validate u = .ok () :=
  forall_subtrees (fun _ _ _ h => (validate_node.1 h).2) ht

theorem bind_node {b : Bindings} {group : GroupId} {op : Operator} {inputs : List PhysicalPlan} :
    bind (.node group op inputs) b = .ok () ↔
      b.checkAll op.bindings = .ok () ∧ ∀ t ∈ inputs, t.bind b = .ok () := by
  simp only [bind, PlanTree.fold_node, Except.andThen_eq_ok, firstError_eq_ok, List.forall_mem_map]

theorem bind_subtrees {b : Bindings} {t : PhysicalPlan} (ht : t.bind b = .ok ()) :
    ∀ u ∈ t.subtrees, bind u b = .ok () :=
  forall_subtrees (fun _ _ _ h => (bind_node.1 h).2) ht

end PhysicalPlan

/-! ## Without workers -/

namespace PhysicalPlan

theorem columns_node (group : GroupId) (op : Operator) (inputs : List PhysicalPlan) :
    columns (.node group op inputs) = op.columns ((inputs.map columns).headD []) := by
  simp only [columns, PlanTree.fold_node]
  rfl

/-- All inputs of a valid node have the columns of the first, but for sub-queries. -/
theorem columns_of_check {op : Operator} {inputs : List PhysicalPlan} {t : PhysicalPlan}
    (hcheck : op.check (inputs.map columns) = .ok ())
    (hop : ∀ p, op ≠ .subselect p) (ht : t ∈ inputs) :
    t.columns = (inputs.map columns).headD [] := by
  obtain ⟨harity, _, hdetails⟩ := Operator.check_eq_ok.1 hcheck
  rw [List.length_map] at harity
  have hone (hlength : inputs.length ≤ 1) : t.columns = (inputs.map columns).headD [] := by
    cases inputs with
    | nil => cases ht
    | cons u rest =>
      have hrest : rest = [] := List.eq_nil_of_length_eq_zero (by simpa using hlength)
      subst hrest
      rw [List.mem_singleton.1 ht]
      rfl
  have hagree (h : op.checkAgreement (inputs.map columns) = .ok ()) :
      t.columns = (inputs.map columns).headD [] := by
    unfold Operator.checkAgreement at h
    split at h
    · rename_i hall
      simpa using List.all_eq_true.1 hall t.columns (List.mem_map_of_mem ht)
    · cases h
  have hfew {n : Nat} (h : (Arity.exactly n).admits inputs.length = true) (hn : n ≤ 1) :
      inputs.length ≤ 1 := by
    have he : inputs.length = n := by simpa [Arity.admits] using h
    omega
  cases op with
  | subselect p => exact absurd rfl (hop p)
  | merge => exact hagree hdetails
  | mergeLimitingSort order bounds => exact hagree hdetails
  | union distinct => exact hagree hdetails
  | intersect => exact hagree hdetails
  | projection p =>
    refine hone (hfew (n := 1) ?_ (Nat.le_refl 1))
    cases p <;> exact harity
  | _ => exact hone (hfew harity (by decide))

/-- The stream of a plan of which nothing runs on a worker. -/
def inline (canSpill : Bool) (s : RunState) (t : PhysicalPlan) : Except Failure TupleStream :=
  t.fold fun group op inputs below => do
    let streams ← below.mapM id
    Lowering.stream ⟨0, 0, canSpill⟩ s op (columns (.node group op inputs))
      (inputs.map PlanTree.group) streams

theorem inline_node (canSpill : Bool) (s : RunState) (group : GroupId) (op : Operator)
    (inputs : List PhysicalPlan) :
    inline canSpill s (.node group op inputs) =
      (inputs.mapM (inline canSpill s)).bind fun streams =>
        Lowering.stream ⟨0, 0, canSpill⟩ s op (op.columns ((inputs.map columns).headD []))
          (inputs.map PlanTree.group) streams := by
  rw [inline, PlanTree.fold_node, columns_node, List.mapM_map, Function.id_comp]
  rfl

/-- Streams are set up from the tables and the late-bound values alone. -/
theorem inline_congr (canSpill : Bool) {s s' : RunState} (hstore : s.store = s'.store)
    (hbindings : s.bindings = s'.bindings) (t : PhysicalPlan) :
    t.inline canSpill s = t.inline canSpill s' := by
  induction t using PlanTree.induct with
  | node group op inputs ih =>
    have hin : inputs.mapM (inline canSpill s) = inputs.mapM (inline canSpill s') := by
      simpa only [List.mapM_map, Function.id_comp] using
        congrArg (List.mapM id) (List.map_congr_left ih)
    rw [inline_node, inline_node, hin]
    congr 1
    funext streams
    cases op <;> simp only [Lowering.stream, hstore, hbindings]

end PhysicalPlan

namespace Lowering

/-- What setting up came to, next to a result without workers. Channels may be too large. -/
inductive SetUp {α β : Type} (limits : RunLimits) (ρ : α → β → Prop) (s : RunState) :
    Except Failure α × LoweringState → Except Failure β → Prop
  | ok {a b st} : ρ a b → s.Recounted st.run → SetUp limits ρ s (.ok a, st) (.ok b)
  | failed {f st} : s.Recounted st.run → SetUp limits ρ s (.error f, st) (.error f)
  | noRoom {st r} : channelBound ≤ limits.channelCapacity → s.Recounted st.run →
    SetUp limits ρ s (.error (.crashed .noRoom), st) r

/-- Runs are compared in equal states, up to counters; where it is granted, failures to spill are
excused. -/
def equal (lenient : Bool) : Bond := 
  ⟨RunState.Recounted, fun e => lenient = true ∧ e = .spill, True⟩

theorem equal_exact (lenient : Bool) : (equal lenient).Exact where
  store h := by obtain ⟨p, rfl⟩ := h; rfl
  affected h := by obtain ⟨p, rfl⟩ := h; rfl
  change _ _ h := by obtain ⟨p, rfl⟩ := h; exact ⟨p, rfl⟩

theorem equal_faithful (lenient : Bool) : (equal lenient).Faithful :=
  (equal_exact lenient).faithfulTo (fun h => by obtain ⟨p, rfl⟩ := h; exact .of_eq rfl)
    (fun h h₁ h₁' => (h₁.symm.trans h).trans h₁')
    (fun _ h => by obtain ⟨p, rfl⟩ := h; exact ⟨p, rfl⟩)
    (fun _ _ h => by obtain ⟨p, rfl⟩ := h; exact ⟨p, rfl⟩)

/-- Every tuple is allowed. -/
def anyTuple : List Column → Tuple → Prop := fun _ _ => True

theorem anyTuple_layout : Layout anyTuple := ⟨fun _ => trivial, fun _ _ => trivial,
  fun _ => trivial, fun _ => trivial⟩

theorem inputs_any {B : Bond} (op : Operator) {input : List Column} {ts ts' : List TupleStream}
    (h : List.Forall₂ (TupleStream.Sim B fun _ => True) ts ts') :
    Inputs B anyTuple input op ts ts' := by
  cases op with
  | subselect p =>
    cases h with
    | nil => exact .inl ⟨rfl, rfl⟩
    | cons ht hrest => exact .inr ⟨_, _, _, _, _, rfl, rfl, ht, hrest⟩
  | _ => exact h

theorem SetUp.recount {α β : Type} {limits : RunLimits} {ρ : α → β → Prop} {s s' : RunState}
    {o : Except Failure α × LoweringState} {r : Except Failure β} (hs : s.Recounted s')
    (h : SetUp limits ρ s' o r) : SetUp limits ρ s o r := by
  cases h with
  | ok ha hs' => exact .ok ha (hs.trans hs')
  | failed hs' => exact .failed (hs.trans hs')
  | noRoom hroom hs' => exact .noRoom hroom (hs.trans hs')

theorem inline_recounted {s s' : RunState} (h : s.Recounted s') (canSpill : Bool)
    (t : PhysicalPlan) : t.inline canSpill s' = t.inline canSpill s := by
  obtain ⟨p, rfl⟩ := h
  exact PhysicalPlan.inline_congr canSpill rfl rfl t

/-- Steps of setting up go on from the states that they leave. -/
theorem bind_apply {α β : Type} (x : Lowering α) (f : α → Lowering β) (st : LoweringState) :
    (x >>= f) st = match x st with
      | (.error e, st) => (.error e, st)
      | (.ok a, st) => f a st := by
  simp only [bind, ExceptT.bind, ExceptT.mk, StateT.bind]
  rcases x st with ⟨_ | a, st⟩ <;> rfl

theorem SetUp.bind {α β γ δ : Type} {limits : RunLimits} {ρ : α → β → Prop} {ρ' : γ → δ → Prop}
    {x : Lowering α} {f : α → Lowering γ} {r : Except Failure β} {g : β → Except Failure δ}
    {st : LoweringState}
    (h : SetUp limits ρ st.run (x st) r)
    (hf : ∀ a b st', ρ a b → st.run.Recounted st'.run → SetUp limits ρ' st'.run (f a st') (g b)) :
    SetUp limits ρ' st.run ((x >>= f) st) (r.bind g) := by
  rw [bind_apply]
  generalize x st = o at h
  cases h with
  | ok ha hs => exact (hf _ _ _ ha hs).recount hs
  | failed hs => exact .failed hs
  | noRoom hroom hs => exact .noRoom hroom hs

section

variable (limits : RunLimits)

theorem connect_apply (consumer group : GroupId) (t : TupleStream) (st : LoweringState) :
    connect limits consumer group t st =
      if group ≠ consumer ∧ st.workers < limits.maxWorkers then
        if channelBound ≤ limits.channelCapacity then (.error (.crashed .noRoom), st)
        else (.ok (t.onWorker group), { st with workers := st.workers + 1 })
      else (.ok t, st) := by
  have hget : (get : Lowering LoweringState) st = (.ok st, st) := rfl
  simp only [connect, bind_apply, hget]
  split
  · split <;> rfl
  · rfl

variable {B : Bond} {P : Tuple → Prop}

theorem connect_setUp (hw : B.workers) {t t' : TupleStream} (consumer group : GroupId)
    (h : t.Sim B P t') (st : LoweringState) :
    SetUp limits (TupleStream.Sim B P) st.run (connect limits consumer group t st) (.ok t') := by
  rw [connect_apply]
  split
  · split
    · rename_i hroom
      exact .noRoom hroom (.refl _)
    · exact .ok (h.onWorker hw group) (.refl _)
  · exact .ok h (.refl _)

theorem connectAll_setUp (hw : B.workers) {canSpill : Bool} (consumer : GroupId) {inputs : List PhysicalPlan}
    (h : ∀ t ∈ inputs, ∀ st, SetUp limits (TupleStream.Sim B P) st.run (lower limits t st)
      (t.inline canSpill st.run)) (st : LoweringState) :
    SetUp limits (List.Forall₂ (TupleStream.Sim B P)) st.run
      (connectAll limits consumer
        ((inputs.map PlanTree.group).zip (inputs.map (lower limits))) st)
      (inputs.mapM (PhysicalPlan.inline canSpill st.run)) := by
  induction inputs generalizing st with
  | nil => exact .ok .nil (.refl _)
  | cons t rest ih =>
    have hrest := ih fun u hu => h u (List.mem_cons_of_mem _ hu)
    rw [List.mapM_cons]
    refine SetUp.bind (h t List.mem_cons_self st) fun a b st₁ hab hs₁ => ?_
    refine SetUp.bind (r := .ok b)
      (g := fun b => (rest.mapM (PhysicalPlan.inline canSpill st.run)).bind fun bs => .ok (b :: bs))
      (connect_setUp limits hw consumer t.group hab st₁) fun a' b' st₂ hab' hs₂ => ?_
    have hsame : PhysicalPlan.inline canSpill st₂.run = PhysicalPlan.inline canSpill st.run :=
      funext fun u => inline_recounted (hs₁.trans hs₂) canSpill u
    have hall := hrest st₂
    rw [hsame] at hall
    exact hall.bind fun as bs st₃ habs _ => .ok (.cons hab' habs) (.refl _)

/-- Setting up a plan gives the stream that the plan has without workers. -/
theorem lower_setUp (lenient : Bool) (t : PhysicalPlan) (st : LoweringState) :
    SetUp limits (TupleStream.Sim (equal lenient) fun _ => True) st.run (lower limits t st)
      (t.inline (limits.canSpill || lenient) st.run) := by
  induction t using PlanTree.induct generalizing st with
  | node group op inputs ih =>
    have hspill : limits.canSpill = (limits.canSpill || lenient) ∨
        limits.canSpill = false ∧ (equal lenient).excuses .spill := by
      cases limits.canSpill <;> cases lenient <;> simp [equal]
    rw [lower, PlanTree.fold_node, PhysicalPlan.inline_node]
    refine SetUp.bind (connectAll_setUp limits trivial group ih st) fun ts ts' st₁ hts hs₁ => ?_
    rw [PhysicalPlan.columns_node]
    generalize (inputs.map PhysicalPlan.columns).headD [] = input
    have hboth : Except.Both (TupleStream.Sim (equal lenient) fun _ => True)
        (stream limits st₁.run op (op.columns input) (inputs.map PlanTree.group) ts)
        (stream ⟨0, 0, limits.canSpill || lenient⟩ st₁.run op (op.columns input)
          (inputs.map PlanTree.group) ts') :=
      stream_both (equal_faithful lenient) anyTuple_layout hspill (fun _ _ => trivial)
        (fun _ => equal_exact lenient) (.refl _)
        (fun _ _ _ _ _ _ => trivial) (inputs_any op hts)
    have hcount : st₁.run.Recounted (st₁.run.count .lower) := ⟨_, rfl⟩
    obtain ⟨p, hp⟩ := hs₁
    have hsame : stream ⟨0, 0, limits.canSpill || lenient⟩ st₁.run op (op.columns input)
        (inputs.map PlanTree.group) ts' =
          stream ⟨0, 0, limits.canSpill || lenient⟩ st.run op (op.columns input)
            (inputs.map PlanTree.group) ts' := by
      rw [hp]
      cases op <;> rfl
    have hget : (get : Lowering LoweringState) st₁ = (.ok st₁, st₁) := rfl
    have hlift (r : Except Failure TupleStream) (st : LoweringState) :
        (liftM r : Lowering TupleStream) st = (r, st) := rfl
    simp only [bind_apply, hget, hlift]
    rw [← hsame]
    generalize stream limits st₁.run op _ _ ts = r at hboth
    generalize stream ⟨0, 0, _⟩ st₁.run op _ _ ts' = r' at hboth
    cases hboth with
    | ok ht => exact .ok ht hcount
    | error e => exact .failed (.refl _)

end

end Lowering

/-! ## Executions -/

/-- What executing a plan that cannot be set up comes to. -/
def Failure.refusal : Failure → Fallible QueryError Run
  | .error e => throw (.execution e)
  | .crashed c => throwThe Crash c

/-- The state in which the plan of a query is set up. -/
def QueryContext.runState (q : QueryContext) (e : EngineState) : RunState :=
  ⟨e.store, e.profile, q.bindings, 0⟩

namespace PhysicalPlan

variable (limits : RunLimits) (lenient : Bool) (t : PhysicalPlan) {q : QueryContext}
  {e : EngineState}

theorem execute_of_bind (hbind : t.bind q.bindings = .ok ()) (hlive : q.cancelled = false) :
    t.execute limits q e = match Lowering.lower limits t ⟨q.runState e, 0⟩ with
      | (.error f, _) => f.refusal
      | (.ok u, st) => pure (u.run ⟨st.run.store, st.run.profile, q.bindings, 0⟩) := by
  simp only [execute, ResultStream.start, hbind, hlive, Bool.false_eq_true, if_false,
    QueryContext.runState]
  rcases Lowering.lower limits t ⟨⟨e.store, e.profile, q.bindings, 0⟩, 0⟩ with
    ⟨(f | c) | u, st⟩ <;> rfl

/-- Once a plan has been set up, its stream is run as the one without workers. -/
theorem run_like {lenient : Bool} {P : Tuple → Prop} {u v : TupleStream} {s : RunState}
    (h : u.Sim (Lowering.equal lenient) P v) (hs : (q.runState e).Recounted s) :
    (Lowering.equal lenient).Like (u.run ⟨s.store, s.profile, q.bindings, 0⟩)
      (v.run (q.runState e)) := by
  refine TupleStream.Sim.run (Lowering.equal_faithful lenient).counted _ h ?_
  obtain ⟨p, rfl⟩ := hs
  exact ⟨_, rfl⟩

/-- A plan is executed as its stream without workers is run, as long as channels can be addressed. -/
theorem execute_cases (hbind : t.bind q.bindings = .ok ()) (hlive : q.cancelled = false)
    (hroom : limits.channelCapacity < Lowering.channelBound) :
    (∃ f, t.inline (limits.canSpill || lenient) (q.runState e) = .error f ∧
      t.execute limits q e = f.refusal) ∨
      ∃ v r, t.inline (limits.canSpill || lenient) (q.runState e) = .ok v ∧
        t.execute limits q e = pure r ∧ (Lowering.equal lenient).Like r (v.run (q.runState e)) := by
  have hset := Lowering.lower_setUp limits lenient t ⟨q.runState e, 0⟩
  rw [execute_of_bind limits t hbind hlive]
  generalize Lowering.lower limits t ⟨q.runState e, 0⟩ = o at hset ⊢
  change Lowering.SetUp limits _ (q.runState e) o (t.inline _ (q.runState e)) at hset
  generalize t.inline (limits.canSpill || lenient) (q.runState e) = r at hset ⊢
  cases hset with
  | noRoom hfull hs => exact absurd hroom (Nat.not_lt.2 hfull)
  | @failed f st hs => exact .inl ⟨f, rfl, rfl⟩
  | @ok u v st hsim hs =>
    exact .inr ⟨v, _, rfl, rfl, run_like hsim hs⟩

/-- An execution that is not refused has every late-bound value, and its query is not cancelled. -/
theorem bound_of_execute {r : Run} (h : t.execute limits q e = pure r) :
    t.bind q.bindings = .ok () ∧ q.cancelled = false := by
  cases hbind : t.bind q.bindings with
  | error cause =>
    simp only [execute, ResultStream.start, hbind] at h
    cases h
  | ok _ =>
    cases hlive : q.cancelled with
    | true =>
      simp only [execute, ResultStream.start, hbind, hlive, if_true] at h
      cases h
    | false => exact ⟨rfl, rfl⟩

/-- Plans that need the same late-bound values are refused alike before they are set up, if at all. -/
theorem bound_or_refused {t u : PhysicalPlan} (h : t.bind q.bindings = u.bind q.bindings) :
    t.bind q.bindings = .ok () ∧ q.cancelled = false ∨
      t.execute limits q e = u.execute limits q e ∧ ∀ r, t.execute limits q e ≠ pure r := by
  by_cases hbound : t.bind q.bindings = .ok () ∧ q.cancelled = false
  · exact .inl hbound
  · refine .inr ⟨?_, fun r hr => hbound (bound_of_execute limits t hr)⟩
    cases hbind : t.bind q.bindings with
    | error cause =>
      rw [hbind] at h
      simp only [execute, ResultStream.start, hbind, ← h]
    | ok _ =>
      cases hlive : q.cancelled with
      | false => exact absurd ⟨hbind, hlive⟩ hbound
      | true =>
        rw [hbind] at h
        simp only [execute, ResultStream.start, hbind, ← h, hlive, if_true]

/-- An execution that is not refused runs the stream that the plan has without workers. -/
theorem execute_eq_pure {r : Run} (h : t.execute limits q e = pure r) :
    ∃ v, t.inline (limits.canSpill || lenient) (q.runState e) = .ok v ∧
      (Lowering.equal lenient).Like r (v.run (q.runState e)) := by
  obtain ⟨hbind, hlive⟩ := bound_of_execute limits t h
  have hset := Lowering.lower_setUp limits lenient t ⟨q.runState e, 0⟩
  rw [execute_of_bind limits t hbind hlive] at h
  generalize Lowering.lower limits t ⟨q.runState e, 0⟩ = o at hset h
  change Lowering.SetUp limits _ (q.runState e) o (t.inline _ (q.runState e)) at hset
  generalize t.inline (limits.canSpill || lenient) (q.runState e) = found at hset ⊢
  cases hset with
  | noRoom hfull hs => cases h
  | @failed f st hs => cases f <;> cases h
  | @ok u v st hsim hs =>
    cases h
    exact ⟨v, rfl, run_like hsim hs⟩

end PhysicalPlan

end QueryEngine
