import QueryEngine.Proofs.Effects
import QueryEngine.Proofs.ReadOnly

/-!
# Workers that run ahead

An input of another group than its consumer's may run on a worker. The worker pulls it from the moment
at which it is set up, as far ahead of its consumer as the channel between them lets it, while all
that runs shares the results of sub-queries and the tables. Where no worker touches results that are
touched beside it or looks at tables that change, a plan comes to what it comes to without workers,
whenever they pull.
-/

set_option autoImplicit false

namespace QueryEngine

/-! ## What plans touch -/

namespace Operator

/-- The groups whose results an operator reads or binds; the groups given are those of its inputs. -/
def touches (op : Operator) (groups : List GroupId) : List GroupId :=
  op.bindings.flatMap Binding.groups ++ op.readGroups groups

/-- The numbers of the tables that an operator looks at. -/
def tables : Operator → List Nat
  | scan h .. => [h.number]
  | sample h .. => [h.number]
  | rowCount h _ => [h.number]
  | indexScan x _ _ => [x.table]
  | fetch h _ => [h.number]
  | insert h _ => [h.number]
  | update h _ => [h.number]
  | delete h => [h.number]
  | _ => []

end Operator

namespace PhysicalPlan

/-- The groups whose results a plan reads or binds, once for each place that does. -/
def touched (t : PhysicalPlan) : List GroupId :=
  t.fold fun _ op inputs below => op.touches (inputs.map PlanTree.group) ++ below.flatten

/-- The numbers of the tables that a plan looks at. -/
def tables (t : PhysicalPlan) : List Nat := t.subtrees.flatMap (·.op.tables)

/-- The numbers of the tables that a plan changes. -/
def written (t : PhysicalPlan) : List Nat :=
  (t.subtrees.filter (·.op.writes)).flatMap (·.op.tables)

/-- The inputs in a plan that are of another group than their consumers and may run on workers. -/
def abroad (t : PhysicalPlan) : List PhysicalPlan :=
  t.subtrees.flatMap fun u => u.inputs.filter (·.group != u.group)

/-- The groups whose results are bound in a plan and touched beside one of its inputs. -/
def shared (t c : PhysicalPlan) : List GroupId :=
  t.boundGroups.filter fun g => c.touched.count g != t.touched.count g

/-- The tables that are changed in a plan and that one of its inputs looks at. -/
def contested (t c : PhysicalPlan) : List Nat := t.written.filter (· ∈ c.tables)

/-- Whether no input that may run on a worker touches results that are touched beside it. -/
def ResultsApart (t : PhysicalPlan) : Prop := ∀ c ∈ t.abroad, ∀ g ∈ t.shared c, g ∉ c.touched

-- Groups could also be tried one after another, but there are too many of them.
instance (t : PhysicalPlan) : Decidable t.ResultsApart :=
  decidable_of_iff (t.abroad.all fun c => (t.shared c).all fun g => decide (g ∉ c.touched)) (by
    simp only [ResultsApart, List.all_eq_true, decide_eq_true_eq])

/-- Whether no input that may run on a worker looks at tables that the plan changes either. -/
structure Apart (t : PhysicalPlan) : Prop where
  results : t.ResultsApart
  tables : ∀ c ∈ t.abroad, t.contested c = []

instance (t : PhysicalPlan) : Decidable t.Apart :=
  decidable_of_iff (t.ResultsApart ∧ t.abroad.all fun c => (t.contested c).isEmpty) (by
    rw [List.all_eq_true]
    exact ⟨fun h => ⟨h.1, fun c hc => List.isEmpty_iff.1 (h.2 c hc)⟩,
      fun h => ⟨h.results, fun c hc => List.isEmpty_iff.2 (h.tables c hc)⟩⟩)

variable {group : GroupId} {op : Operator} {inputs : List PhysicalPlan} {t c : PhysicalPlan}

theorem touched_node (group : GroupId) (op : Operator) (inputs : List PhysicalPlan) :
    touched (.node group op inputs) =
      op.touches (inputs.map PlanTree.group) ++ (inputs.map touched).flatten := by
  rw [touched, PlanTree.fold_node]
  rfl

theorem mem_touched_of_mem (hc : c ∈ inputs) {g : GroupId} (hg : g ∈ c.touched) :
    g ∈ touched (.node group op inputs) := by
  rw [touched_node]
  exact List.mem_append_right _ (List.mem_flatten.2 ⟨_, List.mem_map_of_mem hc, hg⟩)

theorem touched_of_mem_boundGroups (t : PhysicalPlan) :
    ∀ g ∈ t.boundGroups, g ∈ t.touched := by
  induction t using PlanTree.induct with
  | node group op inputs ih =>
    intro g hg
    rw [boundGroups_node] at hg
    rcases List.mem_append.1 hg with hread | hbelow
    · rw [touched_node]
      exact List.mem_append_left _ (List.mem_append_right _ hread)
    · obtain ⟨_, hgs, hg⟩ := List.mem_flatten.1 hbelow
      obtain ⟨c, hc, rfl⟩ := List.mem_map.1 hgs
      exact mem_touched_of_mem hc (ih c hc g hg)

theorem mem_abroad : c ∈ t.abroad ↔ ∃ u ∈ t.subtrees, c ∈ u.inputs ∧ c.group ≠ u.group := by
  simp [abroad]

theorem mem_abroad_node : c ∈ abroad (.node group op inputs) ↔
    (c ∈ inputs ∧ c.group ≠ group) ∨ ∃ t ∈ inputs, c ∈ t.abroad := by
  simp only [mem_abroad, mem_subtrees_node, or_and_right, exists_or, exists_eq_left]
  refine or_congr Iff.rfl ⟨?_, ?_⟩
  · rintro ⟨u, ⟨t, ht, hu⟩, hc⟩
    exact ⟨t, ht, u, hu, hc⟩
  · rintro ⟨t, ht, u, hu, hc⟩
    exact ⟨u, ⟨t, ht, hu⟩, hc⟩

/-! ### Plans that touch the same -/

/-- Whether a plan touches the same results as another one, and inputs that may run on workers touch
nothing that they did not there. -/
structure KeepsApart (t u : PhysicalPlan) : Prop where
  touched_eq : u.touched = t.touched
  boundGroups_eq : u.boundGroups = t.boundGroups
  abroad : ∀ c ∈ u.abroad, ∃ d ∈ t.abroad, d.touched = c.touched

namespace KeepsApart

variable {u v : PhysicalPlan} {inputs' : List PhysicalPlan}

theorem trans (h : KeepsApart t u) (h' : KeepsApart u v) : KeepsApart t v := by
  refine ⟨h'.touched_eq.trans h.touched_eq, h'.boundGroups_eq.trans h.boundGroups_eq, ?_⟩
  intro c hc
  obtain ⟨d, hd, hcd⟩ := h'.abroad c hc
  obtain ⟨d', hd', hdd⟩ := h.abroad d hd
  exact ⟨d', hd', hdd.trans hcd⟩

theorem resultsApart (h : KeepsApart t u) (ht : t.ResultsApart) : u.ResultsApart := by
  intro c hc g hg hmem
  obtain ⟨d, hd, hsame⟩ := h.abroad c hc
  rw [shared, h.boundGroups_eq, h.touched_eq, ← hsame] at hg
  rw [← hsame] at hmem
  exact ht d hd g hg hmem

theorem node (h : List.Forall₂ (fun t u => u.group = t.group ∧ KeepsApart t u) inputs inputs') :
    KeepsApart (.node group op inputs) (.node group op inputs') := by
  have hmap {β : Type} {f : PhysicalPlan → β}
      (hf : ∀ t u, u.group = t.group ∧ KeepsApart t u → f u = f t) : inputs'.map f = inputs.map f := by
    induction h with
    | nil => rfl
    | cons hab _ ih => rw [List.map_cons, List.map_cons, hf _ _ hab, ih]
  have hgroups := hmap fun _ _ h => h.1
  refine ⟨?_, ?_, fun c hc => ?_⟩
  · rw [touched_node, touched_node, hgroups, hmap fun _ _ h => h.2.touched_eq]
  · rw [boundGroups_node, boundGroups_node, hgroups, hmap fun _ _ h => h.2.boundGroups_eq]
  · rcases mem_abroad_node.1 hc with ⟨hmem, hgroup⟩ | ⟨u, hu, hc⟩
    · obtain ⟨t, ht, hsame, hkeeps⟩ := exists_mem_of_forall₂ h hmem
      exact ⟨t, mem_abroad_node.2 (.inl ⟨ht, hsame ▸ hgroup⟩), hkeeps.touched_eq.symm⟩
    · obtain ⟨t, ht, -, hkeeps⟩ := exists_mem_of_forall₂ h hu
      obtain ⟨d, hd, hsame⟩ := hkeeps.abroad c hc
      exact ⟨d, mem_abroad_node.2 (.inr ⟨t, ht, hd⟩), hsame⟩

/-- Operators that touch the same do so over the same inputs. -/
theorem operator {op' : Operator} (hbindings : op'.bindings = op.bindings)
    (hread : ∀ gs, op'.readGroups gs = op.readGroups gs) :
    KeepsApart (.node group op inputs) (.node group op' inputs) := by
  refine ⟨?_, ?_, fun c hc => ⟨c, mem_abroad_node.2 (mem_abroad_node.1 hc), rfl⟩⟩
  · rw [touched_node, touched_node, Operator.touches, Operator.touches, hbindings, hread]
  · rw [boundGroups_node, boundGroups_node, hread]

/-- Two operators that touch nothing become one. -/
theorem fuse {g : GroupId} {op' op'' : Operator} {input : PhysicalPlan}
    (hop : ∀ gs, op.touches gs = []) (hop' : ∀ gs, op'.touches gs = [])
    (hop'' : ∀ gs, op''.touches gs = []) :
    KeepsApart (.node group op [.node g op' [input]]) (.node group op'' [input]) := by
  have hread {op : Operator} (hop : ∀ gs, op.touches gs = []) (gs : List GroupId) :
      op.readGroups gs = [] := (List.append_eq_nil_iff.1 (hop gs)).2
  have htouched {op : Operator} (hop : ∀ gs, op.touches gs = []) (group : GroupId)
      (t : PhysicalPlan) : touched (.node group op [t]) = t.touched := by
    rw [touched_node, hop]
    exact List.append_nil _
  have hbound {op : Operator} (hop : ∀ gs, op.touches gs = []) (group : GroupId)
      (t : PhysicalPlan) : boundGroups (.node group op [t]) = t.boundGroups := by
    rw [boundGroups_node, hread hop]
    exact List.append_nil _
  refine ⟨?_, ?_, fun c hc => ?_⟩
  · rw [htouched hop'', htouched hop, htouched hop']
  · rw [hbound hop'', hbound hop, hbound hop']
  · rcases mem_abroad_node.1 hc with ⟨hmem, hgroup⟩ | ⟨u, hu, hc⟩
    · obtain rfl := List.mem_singleton.1 hmem
      by_cases hg : c.group = g
      · -- The input is of the group of the node that is gone, which was abroad then.
        refine ⟨.node g op' [c], mem_abroad_node.2 (.inl ⟨List.mem_singleton_self _, ?_⟩), ?_⟩
        · exact hg ▸ hgroup
        · exact htouched hop' g c
      · refine ⟨c, mem_abroad_node.2 (.inr ⟨_, List.mem_singleton_self _, ?_⟩), rfl⟩
        exact mem_abroad_node.2 (.inl ⟨hmem, hg⟩)
    · refine ⟨c, mem_abroad_node.2 (.inr ⟨_, List.mem_singleton_self _, ?_⟩), rfl⟩
      exact mem_abroad_node.2 (.inr ⟨u, hu, hc⟩)

end KeepsApart

theorem count_touched_le (hc : c ∈ inputs) (g : GroupId) :
    c.touched.count g ≤ (touched (.node group op inputs)).count g := by
  obtain ⟨before, behind, rfl⟩ := List.append_of_mem hc
  simp only [touched_node, List.map_append, List.map_cons, List.flatten_append, List.flatten_cons,
    List.count_append]
  omega

theorem count_touched_subtrees {u : PhysicalPlan} (hu : u ∈ t.subtrees) (g : GroupId) :
    u.touched.count g ≤ t.touched.count g :=
  forall_subtrees (p := fun u => u.touched.count g ≤ t.touched.count g)
    (fun _ _ _ h _ hc => Nat.le_trans (count_touched_le hc g) h) (Nat.le_refl _) u hu

/-- What is apart in a plan is so in its inputs. -/
theorem ResultsApart.input (h : ResultsApart (.node group op inputs)) (ht : t ∈ inputs) :
    t.ResultsApart := by
  intro c hc g hg hmem
  obtain ⟨u, hu, hcu, -⟩ := mem_abroad.1 hc
  obtain ⟨hbound, hcount⟩ := List.mem_filter.1 hg
  refine h c (mem_abroad_node.2 (.inr ⟨t, ht, hc⟩)) g (List.mem_filter.2 ⟨?_, ?_⟩) hmem
  · exact mem_boundGroups_of_mem ht hbound
  · have hbelow : c.touched.count g ≤ t.touched.count g :=
      count_touched_subtrees (subtrees_subset hu c (mem_subtrees_of_input hcu)) g
    have habove : t.touched.count g ≤ (touched (.node group op inputs)).count g :=
      count_touched_le ht g
    simp only [bne_iff_ne] at hcount ⊢
    omega

theorem ReadsOnly.written_eq (h : t.ReadsOnly) : t.written = [] := by
  have hnone : t.subtrees.filter (·.op.writes) = [] := by
    rw [List.filter_eq_nil_iff]
    intro u hu
    simp [h u hu]
  rw [written, hnone, List.flatMap_nil]

theorem ReadsOnly.apart (h : t.ReadsOnly) (hresults : t.ResultsApart) : t.Apart :=
  ⟨hresults, fun c _ => by rw [contested, h.written_eq, List.filter_nil]⟩

end PhysicalPlan

/-! ## Streams ahead of their consumers -/

namespace Bindings

/-- Late-bound values with the results that others have for some sub-queries. -/
def withResults (b others : Bindings) (groups : List GroupId) : Bindings :=
  { b with subqueries :=
      others.subqueries.filter (·.1 ∈ groups) ++ b.subqueries.filter (·.1 ∉ groups) }

theorem subquery?_withResults (b others : Bindings) (groups : List GroupId) (g : GroupId) :
    (b.withResults others groups).subquery? g =
      if g ∈ groups then others.subquery? g else b.subquery? g := by
  have hkept (p : GroupId → Bool) (l : List (GroupId × List Value)) :
      (l.filter fun entry => p entry.1).lookup g = if p g then l.lookup g else none := by
    induction l with
    | nil => simp
    | cons entry rest ih =>
      obtain ⟨k, vs⟩ := entry
      by_cases hk : g = k
      · subst hk
        by_cases hp : p g <;> simp [hp, ih]
      · have hk : (g == k) = false := by simpa using hk
        by_cases hp : p k <;> simp [List.lookup_cons, hp, hk, ih]
  simp only [subquery?, withResults, List.lookup_append, hkept (fun k => decide (k ∈ groups)),
    hkept (fun k => decide (k ∉ groups))]
  by_cases hg : g ∈ groups <;> simp [hg]

end Bindings

namespace Store

/-- The store with the rows that another one has in some tables. -/
def withRows (s others : Store) (tables : List Nat) : Store :=
  ⟨s.tables.mapIdx fun n t => if n ∈ tables then { t with rows := (others.table n).rows } else t⟩

theorem withRows_of_rows {s others : Store} {tables : List Nat}
    (h : ∀ n ∈ tables, (others.table n).rows = (s.table n).rows) :
    s.withRows others tables = s := by
  obtain ⟨all⟩ := s
  refine congrArg Store.mk (List.ext_getElem (by simp) fun n hn hn' => ?_)
  rw [List.getElem_mapIdx]
  by_cases hmem : n ∈ tables
  · have hrows := h n hmem
    simp only [table, List.getD_eq_getElem?_getD, List.getElem?_eq_getElem hn',
      Option.getD_some] at hrows
    simp only [hmem, if_true, table, List.getD_eq_getElem?_getD, hrows]
  · rw [if_neg hmem]

theorem withRows_nil (s others : Store) : s.withRows others [] = s :=
  withRows_of_rows (List.forall_mem_nil _)

end Store

/-- What an input has in common with the rest of a plan: the sub-queries whose results are bound there
and the tables that are changed there. -/
structure Commons where
  groups : List GroupId
  tables : List Nat

def PhysicalPlan.commons (t c : PhysicalPlan) : Commons := ⟨t.shared c, t.contested c⟩

/-- A state with these results and rows in place of what it has of the common ones. -/
def RunState.beside (s : RunState) (m : Commons) (results : Bindings) (store : Store) : RunState :=
  { s with bindings := s.bindings.withResults results m.groups
           store := s.store.withRows store m.tables }

/-- What a worker finds at each of its pulls of what is common: results, and rows in place of those
that there are when its consumer pulls. -/
structure Others where
  results : Nat → Bindings
  rows : Nat → Store → Store

namespace Others

/-- From the next pull on. -/
def later (o : Others) : Others := ⟨fun k => o.results (k + 1), fun k => o.rows (k + 1)⟩

/-- The same at each pull. -/
def always (results : Bindings) (store : Store) : Others := ⟨fun _ => results, fun _ _ => store⟩

/-- Whether rows are found as they were at the start wherever they still are so later, when the
consumer pulls. -/
def Follow (start : Store) (o : Others) : Prop :=
  ∀ (k : Nat) (now : Store) (n : Nat) (p : RowId → Bool),
    (now.table n).rows.filter (p ·.1) = (start.table n).rows.filter (p ·.1) →
      ((o.rows k now).table n).rows.filter (p ·.1) = (start.table n).rows.filter (p ·.1)

variable {o : Others} {start now : Store}

theorem always_follow (results : Bindings) (start : Store) : (always results start).Follow start :=
  fun _ _ _ _ _ => rfl

theorem Follow.later (h : o.Follow start) : o.later.Follow start := fun k => h (k + 1)

theorem Follow.rows_eq (h : o.Follow start) (hnow : now.unread = start.unread) (k n : Nat) :
    ((o.rows k now).table n).rows = (now.table n).rows := by
  have hrows : (now.table n).rows = (start.table n).rows :=
    Table.rows_of_unread (Store.table_of_unread hnow n)
  have hfound := h k now n (fun _ => true) (by rw [hrows])
  simpa only [List.filter_true, hrows] using hfound

/-- The tables are found as they are as long as nothing has been written. -/
theorem Follow.withRows_eq (h : o.Follow start) {s : RunState} (hs : s.Unwritten start) (k : Nat)
    (tables : List Nat) : s.store.withRows (o.rows k s.store) tables = s.store :=
  Store.withRows_of_rows fun n _ => h.rows_eq hs k n

end Others

namespace RunState.Unwritten

variable {x : Store} {s s' : RunState}

theorem withRows_eq (hs : s.Unwritten x) (hs' : s'.Unwritten x) (tables : List Nat) :
    s'.store.withRows s.store tables = s'.store := by
  refine Store.withRows_of_rows fun n _ => ?_
  have hunread : s.store.unread = s'.store.unread := hs.trans hs'.symm
  exact Table.rows_of_unread (Store.table_of_unread hunread n)

theorem found (hs : s.Unwritten x) {o : Others} (ho : o.Follow x) (m : Commons) (k : Nat) :
    (s.beside m (o.results k) (o.rows k s.store)).Unwritten x := by
  rw [Unwritten, beside, ho.withRows_eq hs]
  exact hs

theorem left (hs : s.Unwritten x) (hs' : s'.Unwritten x) (m : Commons) :
    (s'.beside m s.bindings s.store).Unwritten x := by
  rw [Unwritten, beside, hs.withRows_eq hs']
  exact hs'

end RunState.Unwritten

mutual

/-- A stream that the worker of a group pulls ahead of its consumer. Each pull finds what there is by
then of what is common, and the consumer goes on with what it has of it itself. A crash shows as the
loss of the worker. -/
def TupleStream.ahead (group : GroupId) (m : Commons) : TupleStream → Others → TupleStream
  | .ended, _ => .ended
  | .of pull, o => .of fun s =>
    (pull (s.beside m (o.results 0) (o.rows 0 s.store))).ahead group m o.later s

def Reply.ahead (group : GroupId) (m : Commons) : Reply → Others → RunState → Reply
  | .row u s' rest, o, s => .row u (s'.beside m s.bindings s.store) (rest.ahead group m o)
  | .finished s' _, _, s => .finished (s'.beside m s.bindings s.store) .ended
  | .failed e s', _, s => .failed e (s'.beside m s.bindings s.store)
  | .crashed _ s' _, _, s => .failed (.workerLost group) (s'.beside m s.bindings s.store)

end

/-! ## Runs with workers -/

namespace Bindings.AgreeOn

variable {sees : Groups} {shared : List GroupId} {b b' : Bindings}

theorem narrow (h : AgreeOn sees b b') : AgreeOn (fun g => sees g ∧ g ∉ shared) b b' where
  slots := h.slots
  results g hg := h.results g hg.1

/-- What others have come to is not seen where only the rest is. -/
theorem withResults (h : AgreeOn (fun g => sees g ∧ g ∉ shared) b b') (others : Bindings) :
    AgreeOn (fun g => sees g ∧ g ∉ shared) (b.withResults others shared) b' where
  slots := h.slots
  results g hg := by rw [subquery?_withResults, if_neg hg.2, h.results g hg]

theorem widen (h : AgreeOn (fun g => sees g ∧ g ∉ shared) b b')
    (hshared : ∀ g ∈ shared, sees g → b.subquery? g = b'.subquery? g) : AgreeOn sees b b' where
  slots := h.slots
  results g hg := by
    by_cases hg' : g ∈ shared
    · exact hshared g hg' hg
    · exact h.results g ⟨hg, hg'⟩

end Bindings.AgreeOn

/-- Whether two states have the same tables, as many rows affected, the same slots and the same results
of some sub-queries. -/
structure RunState.AgreeOn (sees : Groups) (s s' : RunState) : Prop where
  store : s.store = s'.store
  affected : s.affected = s'.affected
  bindings : s.bindings.AgreeOn sees s'.bindings

namespace RunState.AgreeOn

variable {sees : Groups} {s s' s'' : RunState}

theorem refl (s : RunState) : s.AgreeOn sees s := ⟨rfl, rfl, .of_eq rfl⟩

theorem symm (h : s.AgreeOn sees s') : s'.AgreeOn sees s :=
  ⟨h.store.symm, h.affected.symm, h.bindings.symm⟩

theorem trans (h : s.AgreeOn sees s') (h' : s'.AgreeOn sees s'') : s.AgreeOn sees s'' :=
  ⟨h.store.trans h'.store, h.affected.trans h'.affected, h.bindings.trans h'.bindings⟩

end RunState.AgreeOn

/-- Runs are compared by what is seen of some sub-queries; where it is granted, failures to spill are
excused. -/
def Bond.seeing (lenient : Bool) (sees : Groups) : Bond :=
  ⟨RunState.AgreeOn sees, fun e => lenient = true ∧ e = .spill, True⟩

namespace Bond

variable {lenient : Bool} {sees : Groups} {shared : List GroupId}

theorem seeing_exact (lenient : Bool) (sees : Groups) : (seeing lenient sees).Exact where
  store h := h.store
  affected h := h.affected
  change _ _ h := ⟨rfl, rfl, h.bindings⟩

theorem seeing_faithfulTo (lenient : Bool) (sees : Groups) :
    (seeing lenient sees).FaithfulTo sees :=
  (seeing_exact lenient sees).faithfulTo (fun h => h.bindings)
    (fun h h₁ h₁' => by
      obtain ⟨p, rfl⟩ := h₁
      obtain ⟨p', rfl⟩ := h₁'
      exact ⟨h.store, h.affected, h.bindings⟩)
    (fun g h => ⟨h.store, h.affected, h.bindings.setSubquery g []⟩)
    (fun g v h => ⟨h.store, h.affected, h.bindings.append g v⟩)

theorem seeing_of_equal {r r' : Run} (h : (Lowering.equal lenient).Like r r') :
    (seeing lenient sees).Like r r' := by
  cases h with
  | excused hend he hprefix => exact .excused hend he hprefix
  | alike hrows hends hw hstate =>
    obtain ⟨p, hp⟩ := hstate
    refine .alike hrows hends hw ?_
    rw [hp]
    exact ⟨rfl, rfl, .of_eq rfl⟩

end Bond

theorem Bond.Exact.within_true {B : Bond} (hB : B.Exact) : (B.within fun _ => True).Exact where
  store h := hB.store h.1
  affected h := hB.affected h.1
  change x n h := ⟨hB.change x n h.1, trivial, trivial⟩

theorem Bond.Like.of_within {B : Bond} {I : RunState → Prop} {r r' : Run}
    (h : (B.within I).Like r r') : B.Like r r' := by
  cases h with
  | alike hrows hends hw hstate => exact .alike hrows hends hw hstate.1
  | excused hend he hprefix => exact .excused hend he hprefix

/-- Whether the rows that a worker finds and leaves are no others than those that there are, in states
with a property. -/
structure Others.Idle (o : Others) (m : Commons) (I : RunState → Prop) : Prop where
  found : ∀ k s, I s → s.store.withRows (o.rows k s.store) m.tables = s.store
  left : ∀ s s', I s → I s' → s'.store.withRows s.store m.tables = s'.store

namespace Others.Idle

variable {o : Others} {m : Commons} {I : RunState → Prop}

theorem later (h : o.Idle m I) : o.later.Idle m I := ⟨fun k => h.found (k + 1), h.left⟩

theorem of_nil (hm : m.tables = []) : o.Idle m I where
  found k s _ := by rw [hm, Store.withRows_nil]
  left s s' _ _ := by rw [hm, Store.withRows_nil]

/-- Tables that may change have not changed yet. -/
theorem of_follow {start : Store} (h : o.Follow start) : o.Idle m (RunState.Unwritten start) where
  found k _ hs := h.withRows_eq hs k m.tables
  left _ _ hs hs' := RunState.Unwritten.withRows_eq hs hs' m.tables

end Others.Idle

section

variable {lenient : Bool} {sees own : Groups} {m : Commons} {P Q : Tuple → Prop}
  {I : RunState → Prop} {o : Others}

/-- What a worker leaves, without the results that it was given. -/
theorem Bond.seeing_rejoin (hI : RunState.Lasting I) (hidle : o.Idle m I)
    (hown : ∀ g ∈ m.groups, ¬ own g) {s s' s₁ s₁' : RunState}
    (hs : ((seeing lenient sees).within I).state s s')
    (hs₁ : ((seeing lenient fun g => sees g ∧ g ∉ m.groups).within I).state s₁ s₁')
    (hkept : s'.Rebound own s₁') :
    ((seeing lenient sees).within I).state (s₁.beside m s.bindings s.store) s₁' := by
  have hleft : s₁.beside m s.bindings s.store =
      { s₁ with bindings := s₁.bindings.withResults s.bindings m.groups } := by
    rw [RunState.beside, hidle.left s s₁ hs.2.1 hs₁.2.1]
  have hagree : (s₁.bindings.withResults s.bindings m.groups).AgreeOn sees s₁'.bindings := by
    refine (hs₁.1.bindings.withResults s.bindings).widen fun g hg hsees => ?_
    rw [Bindings.subquery?_withResults, if_pos hg, hkept g (hown g hg)]
    exact hs.1.bindings.results g hsees
  rw [hleft]
  exact ⟨⟨hs₁.1.store, hs₁.1.affected, hagree⟩, hI.rebind rfl hs₁.2.1, hs₁.2.2⟩

/-- A worker that does not touch the results that others bind is not noticed, whenever it pulls, where
it finds the rows that there are. -/
theorem TupleStream.Sim.ahead (hI : RunState.Lasting I) (hown : ∀ g ∈ m.groups, ¬ own g)
    (group : GroupId) (t : TupleStream) : ∀ {t' o}, o.Idle m I →
      t.Sim ((Bond.seeing lenient fun g => sees g ∧ g ∉ m.groups).within I) P t' → t'.Keeps own Q →
        (t.ahead group m o).Sim ((Bond.seeing lenient sees).within I) P t' := by
  induction t using TupleStream.inductRests with
  | ended =>
    intro t' o hidle h hkeeps
    refine sim_iff.2 fun s s' hs => ?_
    have hs₀ : ((Bond.seeing lenient fun g => sees g ∧ g ∉ m.groups).within I).state s s' :=
      ⟨⟨hs.1.store, hs.1.affected, hs.1.bindings.narrow⟩, hs.2⟩
    have ha := h.answer hs₀
    have hkept := hkeeps.pull s'
    change Bond.Answer _ _ _ (.finished s .ended) _ at ha
    generalize t'.pull s' = r' at ha hkept
    cases ha with
    | finished hs₁ =>
      refine .finished ⟨⟨hs₁.1.store, hs₁.1.affected, hs₁.1.bindings.widen fun g hg hsees => ?_⟩, hs₁.2⟩
      exact (hs.1.bindings.results g hsees).trans (hkept.1 g (hown g hg)).symm
  | of pull ih =>
    intro t' o hidle h hkeeps
    refine sim_iff.2 fun s s' hs => ?_
    have hmet : s.beside m (o.results 0) (o.rows 0 s.store) =
        { s with bindings := s.bindings.withResults (o.results 0) m.groups } := by
      rw [RunState.beside, hidle.found 0 s hs.2.1]
    have hfound : ((Bond.seeing lenient fun g => sees g ∧ g ∉ m.groups).within I).state
        (s.beside m (o.results 0) (o.rows 0 s.store)) s' := by
      rw [hmet]
      exact ⟨⟨hs.1.store, hs.1.affected, hs.1.bindings.narrow.withResults (o.results 0)⟩,
        hI.rebind rfl hs.2.1, hs.2.2⟩
    have ha := h.answer hfound
    have hkept := hkeeps.pull s'
    have rests := ih (s.beside m (o.results 0) (o.rows 0 s.store))
    simp only [TupleStream.ahead, pull_of] at ha ⊢
    generalize pull (s.beside m (o.results 0) (o.rows 0 s.store)) = r at ha rests
    generalize t'.pull s' = r' at ha hkept
    have hleft {s₁ s₁' : RunState}
        (hs₁ : ((Bond.seeing lenient fun g => sees g ∧ g ∉ m.groups).within I).state s₁ s₁')
        (hkept : s'.Rebound own s₁') :
        ((Bond.seeing lenient sees).within I).state (s₁.beside m s.bindings s.store) s₁' :=
      Bond.seeing_rejoin hI hidle hown hs hs₁ hkept
    cases ha with
    | row hu hs₁ ht => exact .row hu (hleft hs₁ hkept.2.1) (rests _ rfl hidle.later ht hkept.2.2)
    | finished hs₁ => exact .finished (hleft hs₁ hkept.1)
    | failed hs₁ => exact .failed (hleft hs₁ hkept)
    | crashed hs₁ => exact .lost trivial (hleft hs₁ hkept)
    | lost _ hs₁ => exact .lost trivial (hleft hs₁ hkept)
    | excused he => exact .excused he

end

namespace PhysicalPlan

/-! ## Scheduled plans -/

variable {limits : RunLimits} {lenient : Bool} {group : GroupId} {op : Operator}
  {inputs : List PhysicalPlan} {t : PhysicalPlan} {s : RunState}

/-- Whether the stream `u` of an input of a plan may be seen by its consumer as `v`: as it is, or from
a worker, if there are any and the input is of another group. -/
def Connects (limits : RunLimits) (s : RunState) (t : PhysicalPlan) (consumer : GroupId)
    (c : PhysicalPlan) (u v : TupleStream) : Prop :=
  v = u ∨ 0 < limits.maxWorkers ∧ c.group ≠ consumer ∧
    ∃ o : Others, o.Follow s.store ∧ v = u.ahead c.group (t.commons c) o

theorem Connects.inline {consumer : GroupId} {c : PhysicalPlan} (u : TupleStream) :
    Connects limits s t consumer c u u :=
  .inl rfl

theorem Connects.worker {consumer : GroupId} {c : PhysicalPlan} (hworkers : 0 < limits.maxWorkers)
    (hgroup : c.group ≠ consumer) (results : Bindings) (u : TupleStream) :
    Connects limits s t consumer c u (u.ahead c.group (t.commons c) (.always results s.store)) :=
  .inr ⟨hworkers, hgroup, _, Others.always_follow results s.store, rfl⟩

/-- Whether a stream may be that of a plan within the plan `t`, whichever inputs have workers and
whenever these pull. -/
def Schedules (limits : RunLimits) (s : RunState) (t c : PhysicalPlan) : TupleStream → Prop :=
  c.fold fun group op inputs below v => ∃ us,
    List.Forall₂ (fun (c : PhysicalPlan × (TupleStream → Prop)) w =>
      ∃ u, c.2 u ∧ Connects limits s t group c.1 u w) (inputs.zip below) us ∧
    Lowering.stream limits s op (columns (.node group op inputs)) (inputs.map PlanTree.group) us =
      .ok v

theorem schedules_node {v : TupleStream} : Schedules limits s t (.node group op inputs) v ↔ ∃ us,
    List.Forall₂ (fun c w => ∃ u, Schedules limits s t c u ∧ Connects limits s t group c u w)
      inputs us ∧
    Lowering.stream limits s op (op.columns ((inputs.map columns).headD []))
      (inputs.map PlanTree.group) us = .ok v := by
  have hzip (f : PhysicalPlan → TupleStream → Prop) :
      inputs.zip (inputs.map f) = inputs.map fun c => (c, f c) := by
    induction inputs with
    | nil => rfl
    | cons c rest ih => rw [List.map_cons, List.zip_cons_cons, ih, List.map_cons]
  rw [Schedules, PlanTree.fold_node, columns_node]
  simp only [hzip, List.forall₂_map_left_iff]
  rfl

theorem Schedules.leaf {v : TupleStream}
    (hv : Lowering.stream limits s op (op.columns []) [] [] = .ok v) :
    Schedules limits s t (.node group op []) v :=
  schedules_node.2 ⟨[], .nil, hv⟩

theorem Schedules.single {c : PhysicalPlan} {u w v : TupleStream} (hu : Schedules limits s t c u)
    (hw : Connects limits s t group c u w)
    (hv : Lowering.stream limits s op (op.columns c.columns) [c.group] [w] = .ok v) :
    Schedules limits s t (.node group op [c]) v :=
  schedules_node.2 ⟨[w], .cons ⟨u, hu, hw⟩ .nil, hv⟩

theorem Schedules.of_single {c : PhysicalPlan} {v : TupleStream}
    (h : Schedules limits s t (.node group op [c]) v) :
    ∃ u w, Schedules limits s t c u ∧ Connects limits s t group c u w ∧
      Lowering.stream limits s op (op.columns c.columns) [c.group] [w] = .ok v := by
  obtain ⟨us, hus, hv⟩ := schedules_node.1 h
  obtain ⟨w, _, ⟨u, hu, hw⟩, hnil, rfl⟩ := List.forall₂_cons_left_iff.1 hus
  cases hnil
  exact ⟨u, w, hu, hw, hv⟩

section

variable {I : RunState → Prop} (hI : RunState.Lasting I)
  (hresults : 0 < limits.maxWorkers → t.ResultsApart)
  (hidle : 0 < limits.maxWorkers → ∀ c ∈ t.abroad, ∀ o : Others, o.Follow s.store →
    o.Idle (t.commons c) I)
include hI hresults hidle

/-- A consumer does not notice whether an input has a worker and when this pulls. -/
theorem Connects.sim {consumer : GroupId} {c : PhysicalPlan} {u v w : TupleStream}
    (hc : c.group ≠ consumer → c ∈ t.abroad) (hv : c.inline (limits.canSpill || lenient) s = .ok v)
    (hu : ∀ sees : Groups, (∀ g ∈ c.touched, sees g) →
      u.Sim ((Bond.seeing lenient sees).within I) (fun _ => True) v)
    (hw : Connects limits s t consumer c u w) {sees : Groups} (hsees : ∀ g ∈ c.touched, sees g) :
    w.Sim ((Bond.seeing lenient sees).within I) (fun _ => True) v := by
  rcases hw with rfl | ⟨hworkers, hgroup, o, hfollow, rfl⟩
  · exact hu sees hsees
  · have hapart : ∀ g ∈ t.shared c, g ∉ c.touched := hresults hworkers c (hc hgroup)
    have hown : ∀ g ∈ t.shared c, g ∉ c.boundGroups :=
      fun g hg hbound => hapart g hg (touched_of_mem_boundGroups c g hbound)
    refine .ahead hI hown c.group u (hidle hworkers c (hc hgroup) o hfollow) (hu _ fun g hg => ?_)
      (inline_keeps c hv)
    exact ⟨hsees g hg, fun hshared => hapart g hshared hg⟩

/-- What a plan comes to does not depend on when its workers pull. -/
theorem Schedules.sim (hs : I s) (c : PhysicalPlan) (hc : c ∈ t.subtrees)
    (hwrite : c.Every fun op => op.writes = true →
      ∀ sees, ((Bond.seeing lenient sees).within I).Exact)
    {sees : Groups} (hsees : ∀ g ∈ c.touched, sees g) {u v : TupleStream}
    (hu : Schedules limits s t c u) (hv : c.inline (limits.canSpill || lenient) s = .ok v) :
    u.Sim ((Bond.seeing lenient sees).within I) (fun _ => True) v := by
  induction c using PlanTree.induct generalizing sees u v with
  | node group op inputs ih =>
    obtain ⟨hexact, hwrite⟩ := every_node.1 hwrite
    obtain ⟨us, hus, hu⟩ := schedules_node.1 hu
    rw [inline_node] at hv
    obtain ⟨vs, hvs, hv⟩ := Except.bind_eq_ok.1 hv
    have hbelow : List.Forall₂
        (TupleStream.Sim ((Bond.seeing lenient sees).within I) fun _ => True) us vs := by
      refine forall₂_meet hus (Except.mapM_eq_ok.1 hvs) fun d hd w v hw hv => ?_
      obtain ⟨u, hu, hw⟩ := hw
      have hd' : d ∈ t.subtrees :=
        subtrees_subset hc d (mem_subtrees_of_mem hd (mem_subtrees_self d))
      refine hw.sim hI hresults hidle (fun hgroup => mem_abroad.2 ⟨_, hc, hd, hgroup⟩) hv
        (fun sees hsees => ih d hd hd' (hwrite d hd) hsees hu hv) fun g hg => ?_
      exact hsees g (mem_touched_of_mem hd hg)
    have hspill : limits.canSpill = (limits.canSpill || lenient) ∨
        limits.canSpill = false ∧ ((Bond.seeing lenient sees).within I).excuses .spill := by
      cases limits.canSpill <;> cases lenient <;> simp [Bond.seeing, Bond.within]
    have hop : ∀ g ∈ op.bindings.flatMap Binding.groups, sees g := by
      intro g hg
      apply hsees
      rw [touched_node]
      exact List.mem_append_left _ (List.mem_append_left _ hg)
    have hstate : ((Bond.seeing lenient sees).within I).state s s := ⟨.refl s, hs, hs⟩
    have hboth : Except.Both
        (TupleStream.Sim ((Bond.seeing lenient sees).within I) fun _ => True)
        (Lowering.stream limits s op (op.columns ((inputs.map columns).headD []))
          (inputs.map PlanTree.group) us)
        (Lowering.stream ⟨0, 0, limits.canSpill || lenient⟩ s op
          (op.columns ((inputs.map columns).headD [])) (inputs.map PlanTree.group) vs) :=
      Lowering.stream_both ((Bond.seeing_faithfulTo lenient sees).within hI)
        Lowering.anyTuple_layout hspill hop (fun hwrites => hexact hwrites sees) hstate
        (fun _ _ _ _ _ _ => trivial) (Lowering.inputs_any op hbelow)
    rw [hu, hv] at hboth
    cases hboth with
    | ok hsim => exact hsim

end

/-- What an input that only reads gives its consumer does not depend on when workers pull as long as the
tables have not changed. -/
theorem Schedules.input_sim (hresults : 0 < limits.maxWorkers → t.ResultsApart)
    (hnode : .node group op inputs ∈ t.subtrees)
    {c : PhysicalPlan} (hc : c ∈ inputs) (hreads : c.ReadsOnly) {u v w : TupleStream}
    (hu : Schedules limits s t c u) (hw : Connects limits s t group c u w)
    (hv : c.inline (limits.canSpill || lenient) s = .ok v) :
    w.Sim ((Bond.seeing lenient fun _ => True).within (RunState.Unwritten s.store))
      (fun _ => True) v := by
  have hidle : 0 < limits.maxWorkers → ∀ c ∈ t.abroad, ∀ o : Others, o.Follow s.store →
      o.Idle (t.commons c) (RunState.Unwritten s.store) := fun _ _ _ _ ho => .of_follow ho
  have hwrite : c.Every fun op => op.writes = true →
      ∀ sees, ((Bond.seeing lenient sees).within (RunState.Unwritten s.store)).Exact := by
    intro d hd hwrites
    rw [hreads d hd] at hwrites
    cases hwrites
  have hsub : c ∈ t.subtrees := subtrees_subset hnode c (mem_subtrees_of_input hc)
  have hlasting := RunState.lasting_unwritten s.store
  refine hw.sim hlasting hresults hidle (fun hgroup => mem_abroad.2 ⟨_, hnode, hc, hgroup⟩) hv
    (fun sees hsees => ?_) fun _ _ => trivial
  exact hu.sim hlasting hresults hidle rfl c hsub hwrite hsees hv

/-! ## Executions -/

variable {q : QueryContext} {e : EngineState} {x : Fallible QueryError Run}

/-- What executing a plan may come to, whichever inputs have workers and whenever these pull. Workers
may find anything of the results that are common, but what they make of these and of tables is not
shown to their consumers, so there may be more for plans in which they change what is common. -/
def CanComeTo (limits : RunLimits) (t : PhysicalPlan) (q : QueryContext) (e : EngineState)
    (x : Fallible QueryError Run) : Prop :=
  x = t.execute limits q e ∨ ∃ r u, t.execute limits q e = pure r ∧
    Schedules limits (q.runState e) t t u ∧ x = pure (u.run (q.runState e))

namespace CanComeTo

/-- A plan that is refused is refused whenever workers pull. -/
theorem eq_execute (hx : t.CanComeTo limits q e x) (hrefused : ∀ r, t.execute limits q e ≠ pure r) :
    x = t.execute limits q e := by
  rcases hx with hx | ⟨r, u, hr, -, -⟩
  · exact hx
  · exact absurd hr (hrefused r)

/-- An execution that is not refused comes to what the stream without workers comes to. -/
theorem like_inline (happart : 0 < limits.maxWorkers → t.Apart) {r : Run}
    (hr : t.CanComeTo limits q e (pure r)) (lenient : Bool) :
    ∃ v, t.inline (limits.canSpill || lenient) (q.runState e) = .ok v ∧
      (Bond.seeing lenient fun _ => True).Like r (v.run (q.runState e)) := by
  rcases hr with hr | ⟨r', u, hr', hu, hr⟩
  · obtain ⟨v, hv, hlike⟩ := execute_eq_pure limits lenient t hr.symm
    exact ⟨v, hv, Bond.seeing_of_equal hlike⟩
  · cases hr
    obtain ⟨v, hv, -⟩ := execute_eq_pure limits lenient t hr'
    have hany : RunState.Lasting fun _ => True := ⟨fun _ _ => trivial, fun _ _ => trivial,
      fun _ _ => trivial⟩
    have hsim := hu.sim hany (fun hworkers => (happart hworkers).results)
      (fun hworkers c hc o _ => .of_nil ((happart hworkers).tables c hc)) trivial t
      (mem_subtrees_self t) (fun _ _ _ sees => (Bond.seeing_exact lenient sees).within_true)
      (fun _ _ => trivial) hv
    have hstart : ((Bond.seeing lenient fun _ => True).within fun _ => True).state (q.runState e)
        (q.runState e) := ⟨.refl _, trivial, trivial⟩
    exact ⟨v, hv, (hsim.run ((Bond.seeing_faithfulTo lenient _).within hany).counted u hstart).of_within⟩

/-- A plan is executed as its stream without workers is run, as long as channels can be addressed. -/
theorem cases (happart : 0 < limits.maxWorkers → t.Apart) (hx : t.CanComeTo limits q e x)
    (hbind : t.bind q.bindings = .ok ()) (hlive : q.cancelled = false)
    (hroom : limits.channelCapacity < Lowering.channelBound) (lenient : Bool) :
    (∃ f, t.inline (limits.canSpill || lenient) (q.runState e) = .error f ∧ x = f.refusal) ∨
      ∃ v r, t.inline (limits.canSpill || lenient) (q.runState e) = .ok v ∧ x = pure r ∧
        (Bond.seeing lenient fun _ => True).Like r (v.run (q.runState e)) := by
  rcases execute_cases (e := e) limits lenient t hbind hlive hroom with
    ⟨f, hf, hrefused⟩ | ⟨_, r, _, hr, _⟩
  · refine .inl ⟨f, hf, (hx.eq_execute fun r hr => ?_).trans hrefused⟩
    rw [hrefused] at hr
    cases f <;> cases hr
  · have hpure : ∃ r', x = pure r' := by
      rcases hx with hx | ⟨_, u, _, _, hx⟩
      · exact ⟨r, hx.trans hr⟩
      · exact ⟨_, hx⟩
    obtain ⟨r', rfl⟩ := hpure
    obtain ⟨v, hv, hlike⟩ := hx.like_inline happart lenient
    exact .inr ⟨v, r', hv, rfl, hlike⟩

end CanComeTo

end PhysicalPlan

end QueryEngine
