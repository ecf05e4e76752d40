import QueryEngine.Proofs.Sorting
import QueryEngine.Proofs.Workers

/-!
# Plans in each other's place

A plan may take the place of another one if it produces the same columns, reads the same late-bound
values and, set up over the same tables, gives a stream that cannot be told apart as long as the keys
of every sort are uniform. Plans that may do so may do so within a larger plan.
-/

set_option autoImplicit false

namespace QueryEngine

/-- Watches the input of a sort. -/
def Operator.watch (op : Operator) (t : TupleStream) : TupleStream :=
  match op with
  | sort order => t.watched order
  | externalSort order _ => t.watched order
  | _ => t

/-- What an operator may be given where tables are only read: scans are of tables without faults, a
scan that is not partitioned is of the only partition, and index handles fit their indexes. -/
def Operator.ReadsFrom (x : Store) (op : Operator) : Prop :=
  match op with
  | scan t _ i n => t = x.handle t.number ∧ (n = 1 → i = 0)
  | indexScan i _ _ => (x.index i).column = i.column
  | _ => op.writes = false

theorem Operator.ReadsFrom.writes_eq {x : Store} {op : Operator} (h : op.ReadsFrom x) :
    op.writes = false := by
  cases op with
  | scan t cs i n => rfl
  | indexScan i t p => rfl
  | _ => exact h

namespace PhysicalPlan

variable (x : Store)

/-- Whether a plan is valid and only reads the tables of a store. -/
structure Admissible (t : PhysicalPlan) : Prop where
  valid : t.validate = .ok ()
  reads : ∀ u ∈ t.subtrees, u.op.ReadsFrom x

variable {x} {t u v : PhysicalPlan} {group : GroupId} {op : Operator} {inputs inputs' : List PhysicalPlan}

theorem admissible_node : Admissible x (.node group op inputs) ↔
    op.check (inputs.map columns) = .ok () ∧ op.ReadsFrom x ∧ ∀ t ∈ inputs, Admissible x t := by
  constructor
  · intro h
    obtain ⟨hcheck, hvalid⟩ := validate_node.1 h.valid
    obtain ⟨hop, hreads⟩ := forall_subtrees_node.1 h.reads
    exact ⟨hcheck, hop, fun t ht => ⟨hvalid t ht, hreads t ht⟩⟩
  · rintro ⟨hcheck, hop, hinputs⟩
    exact ⟨validate_node.2 ⟨hcheck, fun t ht => (hinputs t ht).valid⟩,
      forall_subtrees_node.2 ⟨hop, fun t ht => (hinputs t ht).reads⟩⟩

/-! ## Watched plans -/

/-- The stream of a plan that is cancelled when the keys of a sort are not uniform. -/
def watched (s : RunState) (t : PhysicalPlan) : Except Failure TupleStream :=
  t.fold fun group op inputs below => do
    let streams ← below.mapM id
    Lowering.stream ⟨0, 0, true⟩ s op (columns (.node group op inputs))
      (inputs.map PlanTree.group) (streams.map op.watch)

theorem watched_node (s : RunState) (group : GroupId) (op : Operator) (inputs : List PhysicalPlan) :
    watched s (.node group op inputs) = (inputs.mapM (watched s)).bind fun streams =>
      Lowering.stream ⟨0, 0, true⟩ s op (op.columns ((inputs.map columns).headD []))
        (inputs.map PlanTree.group) (streams.map op.watch) := by
  rw [watched, PlanTree.fold_node, columns_node, List.mapM_map, Function.id_comp]
  rfl

theorem watched_single (s : RunState) (group : GroupId) (op : Operator) (input : PhysicalPlan) :
    watched s (.node group op [input]) = (watched s input).bind fun v =>
      Lowering.stream ⟨0, 0, true⟩ s op (op.columns input.columns) [input.group] [op.watch v] := by
  rw [watched_node, List.mapM_cons, List.mapM_nil]
  cases watched s input <;> rfl

/-! ## Simulations of plans -/

/-- Streams of plans that are set up alike, laid out as the first plan says. -/
def Alike (x : Store) (f f' : PhysicalPlan → Except Failure TupleStream) (t u : PhysicalPlan) : Prop :=
  Except.Both (TupleStream.Sim (.over x) (Tuple.Laid t.columns)) (f t) (f' u)

variable {f f' : PhysicalPlan → Except Failure TupleStream}

theorem mapM_alike {P : Tuple → Prop} (h : List.Forall₂ (Alike x f f') inputs inputs')
    (hP : ∀ t ∈ inputs, ∀ u, Tuple.Laid t.columns u → P u) :
    Except.Both (List.Forall₂ (TupleStream.Sim (.over x) P)) (inputs.mapM f) (inputs'.mapM f') := by
  induction h with
  | nil => exact .ok .nil
  | @cons t u rest rest' ht _ ih =>
    rw [List.mapM_cons, List.mapM_cons]
    have hrest := ih fun v hv => hP v (List.mem_cons_of_mem _ hv)
    unfold Alike at ht
    generalize f t = r at ht
    generalize f' u = r' at ht
    cases ht with
    | error e => exact .error e
    | ok hsim =>
      generalize rest.mapM f = rs at hrest
      generalize rest'.mapM f' = rs' at hrest
      cases hrest with
      | error e => exact .error e
      | ok hsims => exact .ok (.cons (hsim.mono (hP t List.mem_cons_self) _) hsims)

/-- The inputs of a valid node simulate each other as its operator needs it. -/
theorem inputs_alike (hcheck : op.check (inputs.map columns) = .ok ())
    (h : List.Forall₂ (Alike x f f') inputs inputs') :
    Except.Both (Lowering.Inputs (.over x) Tuple.Laid ((inputs.map columns).headD []) op)
      (inputs.mapM f) (inputs'.mapM f') := by
  by_cases hop : ∃ p, op = .subselect p
  · obtain ⟨p, rfl⟩ := hop
    cases h with
    | nil => exact .ok (.inl ⟨rfl, rfl⟩)
    | @cons t u rest rest' ht hrest =>
      rw [List.mapM_cons, List.mapM_cons]
      have hall := mapM_alike (P := fun _ => True) hrest fun _ _ _ _ => trivial
      unfold Alike at ht
      generalize f t = r at ht
      generalize f' u = r' at ht
      generalize rest.mapM f = rs at hall
      generalize rest'.mapM f' = rs' at hall
      cases ht with
      | error e => exact .error e
      | ok hsim =>
        cases hall with
        | error e => exact .error e
        | ok hsims => exact .ok (.inr ⟨_, _, _, _, _, rfl, rfl, hsim, hsims⟩)
  · have hne : ∀ p, op ≠ .subselect p := fun p he => hop ⟨p, he⟩
    have hall := mapM_alike (P := Tuple.Laid ((inputs.map columns).headD [])) h fun t ht u hu =>
      columns_of_check hcheck hne ht ▸ hu
    have hinputs : Lowering.Inputs (.over x) Tuple.Laid ((inputs.map columns).headD []) op =
        List.Forall₂ (TupleStream.Sim (.over x) (Tuple.Laid ((inputs.map columns).headD []))) := by
      funext ts ts'
      cases op with
      | subselect p => exact absurd rfl (hne p)
      | _ => rfl
    rwa [hinputs]

theorem inputs_watch {input : List Column} {ts ts' : List TupleStream}
    (h : Lowering.Inputs (.over x) Tuple.Laid input op ts ts') :
    Lowering.Inputs (.over x) Tuple.Laid input op (ts.map op.watch) (ts'.map op.watch) := by
  have hmap (order : SortOrder)
      (h : List.Forall₂ (TupleStream.Sim (.over x) (Tuple.Laid input)) ts ts') :
      List.Forall₂ (TupleStream.Sim (.over x) (Tuple.Laid input))
        (ts.map (·.watched order)) (ts'.map (·.watched order)) :=
    List.forall₂_map_left_iff.2 (List.forall₂_map_right_iff.2 (h.imp fun _ _ hsim => hsim.watched))
  cases op with
  | sort order => exact hmap order h
  | externalSort order chunk => exact hmap order h
  | _ =>
    change Lowering.Inputs _ _ _ _ (ts.map fun t => t) (ts'.map fun t => t)
    rwa [List.map_id', List.map_id']

theorem inputs_watchLeft {input : List Column} {ts ts' : List TupleStream}
    (h : Lowering.Inputs (.over x) Tuple.Laid input op ts ts') :
    Lowering.Inputs (.over x) Tuple.Laid input op (ts.map op.watch) ts' := by
  have hmap (order : SortOrder)
      (h : List.Forall₂ (TupleStream.Sim (.over x) (Tuple.Laid input)) ts ts') :
      List.Forall₂ (TupleStream.Sim (.over x) (Tuple.Laid input)) (ts.map (·.watched order)) ts' :=
    List.forall₂_map_left_iff.2 (h.imp fun t _ hsim => TupleStream.Sim.watchedLeft rfl t hsim)
  cases op with
  | sort order => exact hmap order h
  | externalSort order chunk => exact hmap order h
  | _ =>
    change Lowering.Inputs _ _ _ _ (ts.map fun t => t) _
    rwa [List.map_id']

/-- An operator that only reads makes streams alike of inputs that are. -/
theorem stream_alike {s : RunState} (hs : s.store.unread = x.unread) (hop : op.ReadsFrom x)
    {input : List Column} {groups : List GroupId} {ts ts' : List TupleStream}
    (h : Lowering.Inputs (.over x) Tuple.Laid input op ts ts') :
    Except.Both (TupleStream.Sim (.over x) (Tuple.Laid (op.columns input)))
      (Lowering.stream ⟨0, 0, true⟩ s op (op.columns input) groups ts)
      (Lowering.stream ⟨0, 0, true⟩ s op (op.columns input) groups ts') := by
  refine Lowering.stream_both (Bond.over_faithful x) Tuple.laid_layout (.inl rfl)
    (fun _ _ => trivial) ?_ ⟨hs, hs, rfl⟩ ?_ h
  · intro hwrites
    rw [hop.writes_eq] at hwrites
    cases hwrites
  · rintro i h p rfl row v
    have hcolumn : (s.store.index i).column = i.column := by
      rw [Store.index_of_unread hs]
      exact hop
    exact ⟨congrArg (fun c => [c]) hcolumn, rfl⟩

/-! ## Replacements -/

/-- Whether the second plan may take the place of the first. -/
structure Replaces (x : Store) (t u : PhysicalPlan) : Prop where
  group_eq : u.group = t.group
  columns_eq : u.columns = t.columns
  bind_eq : ∀ b, u.bind b = t.bind b
  apart : KeepsApart t u
  alike : ∀ s, s.store.unread = x.unread → Alike x (watched s) (watched s) t u

theorem Replaces.trans (h : Replaces x t u) (h' : Replaces x u v) : Replaces x t v := by
  refine ⟨h'.group_eq.trans h.group_eq, h'.columns_eq.trans h.columns_eq,
    fun b => (h'.bind_eq b).trans (h.bind_eq b), h.apart.trans h'.apart, fun s hs => ?_⟩
  have ha := h.alike s hs
  have ha' := h'.alike s hs
  unfold Alike at ha ha' ⊢
  rw [h.columns_eq] at ha'
  generalize watched s t = r at ha
  generalize watched s u = r' at ha ha'
  generalize watched s v = r'' at ha'
  cases ha with
  | error e => cases ha' with | error => exact .error e
  | ok hsim =>
    cases ha' with
    | ok hsim' =>
      refine .ok (TupleStream.Sim.trans ?_ ?_ _ hsim hsim')
      · intro s s' hs
        exact ⟨hs.1, hs.1, rfl⟩
      · intro s s' s'' hs hs'
        exact ⟨hs.1, hs'.2.1, hs.2.2.trans hs'.2.2⟩

theorem Admissible.apart (ht : Admissible x t) (hresults : t.ResultsApart) : t.Apart :=
  ReadsOnly.apart (fun u hu => (ht.reads u hu).writes_eq) hresults

/-- Replacing inputs of a node replaces the node. -/
theorem Replaces.node (ht : Admissible x (.node group op inputs))
    (h : List.Forall₂ (Replaces x) inputs inputs') :
    Replaces x (.node group op inputs) (.node group op inputs') := by
  obtain ⟨hcheck, hop, hbelow⟩ := admissible_node.1 ht
  have hmap {β : Type} {g : PhysicalPlan → β} (hg : ∀ t u, Replaces x t u → g u = g t) :
      inputs'.map g = inputs.map g := by
    clear ht hcheck hbelow
    induction h with
    | nil => rfl
    | cons hab _ ih => rw [List.map_cons, List.map_cons, hg _ _ hab, ih]
  have hcolumns : inputs'.map columns = inputs.map columns := hmap fun _ _ h => h.columns_eq
  have hgroups : inputs'.map PlanTree.group = inputs.map PlanTree.group :=
    hmap fun _ _ h => h.group_eq
  refine ⟨rfl, by rw [columns_node, columns_node, hcolumns], fun b => ?_,
    .node (h.imp fun _ _ hw => ⟨hw.group_eq, hw.apart⟩), fun s hs => ?_⟩
  · have hbind : inputs'.map (bind · b) = inputs.map (bind · b) := hmap fun _ _ h => h.bind_eq b
    simp only [bind] at hbind ⊢
    rw [PlanTree.fold_node, PlanTree.fold_node, hbind]
  · have hinputs := inputs_alike hcheck (h.imp fun t u htu => htu.alike s hs)
    unfold Alike
    rw [watched_node, watched_node, hcolumns, hgroups, columns_node]
    generalize inputs.mapM (watched s) = r at hinputs
    generalize inputs'.mapM (watched s) = r' at hinputs
    cases hinputs with
    | error e => exact .error e
    | ok hts => exact stream_alike hs hop (inputs_watch hts)

theorem Replaces.refl (ht : Admissible x t) : Replaces x t t := by
  induction t using PlanTree.induct with
  | node group op inputs ih =>
    have hinputs := (admissible_node.1 ht).2.2
    exact .node ht (List.forall₂_same.2 fun t h => ih t h (hinputs t h))

/-- A plan is alike to itself without being watched. -/
theorem alike_inline (ht : Admissible x t) {s : RunState} (hs : s.store.unread = x.unread) :
    Alike x (watched s) (inline true s) t t := by
  induction t using PlanTree.induct with
  | node group op inputs ih =>
    obtain ⟨hcheck, hop, hbelow⟩ := admissible_node.1 ht
    have hinputs := inputs_alike hcheck (List.forall₂_same.2 fun t h => ih t h (hbelow t h))
    unfold Alike
    rw [watched_node, inline_node, columns_node]
    generalize inputs.mapM (watched s) = r at hinputs
    generalize inputs.mapM (inline true s) = r' at hinputs
    cases hinputs with
    | error e => exact .error e
    | ok hts => exact stream_alike hs hop (inputs_watchLeft hts)

end PhysicalPlan

end QueryEngine
