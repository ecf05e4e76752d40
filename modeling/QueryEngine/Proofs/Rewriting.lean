import QueryEngine.Proofs.Replacing
import QueryEngine.Proofs.Rows
import QueryEngine.Rewrite.Pass

/-!
# Rewriting keeps results

Counting a scan, sorting before a limit and sorting in memory may be replaced by what the rules put
in their place. A pass replaces nodes anywhere in a plan, and passes go on until nothing changes, so
that rewriting with these rules replaces one plan by another.
-/

set_option autoImplicit false

namespace QueryEngine

/-! ## Counting -/

/-- Counting what is ahead of a cursor. -/
theorem TupleStream.count_ofCursor (h : TableHandle) (pulls : Nat) {c : Cursor} {s : RunState}
    (hrows : (s.table h).rows.Pairwise (·.1 < ·.1))
    (hpulls : (c.remaining (s.table h)).length ≤ pulls) (n : Nat) :
    ∃ s', (ofCursor h pulls c).reduce (fun n _ => .ok (n + 1)) n s =
        (.ok (n + (c.remaining (s.table h)).length), s') ∧
      s'.store.unread = s.store.unread ∧ s'.bindings = s.bindings := by
  induction pulls generalizing c s n with
  | zero =>
    rw [List.eq_nil_of_length_eq_zero (Nat.le_zero.1 hpulls)]
    exact ⟨s, rfl, rfl, rfl⟩
  | succ pulls ih =>
    rw [reduce, consume, drain_eq]
    rcases pull_ofCursor rfl hrows pulls c with ⟨hnil, hpull⟩ | ⟨u, d, t, _, ht, hcons, hpull⟩
    · rw [hpull, hnil]
      exact ⟨s, rfl, rfl, rfl⟩
    · have hunread : (s.setTable h t).store.unread = s.store.unread := Store.unread_setTable ht
      have hsame : ((s.setTable h t).table h).rows = (s.table h).rows :=
        Table.rows_of_unread (Store.table_of_unread hunread h.number)
      rw [hcons, List.length_cons] at hpulls
      rw [← d.remaining_of_rows hsame] at hpulls
      obtain ⟨s', hread, hs', hb'⟩ := ih (hsame ▸ hrows) (Nat.le_of_succ_le_succ hpulls) (n + 1)
      refine ⟨s', ?_, hs'.trans hunread, hb'⟩
      rw [d.remaining_of_rows hsame, reduce, consume] at hread
      rw [hpull, hcons, Reply.drain]
      rw [hread, List.length_cons]
      congr 2
      omega

namespace Rule

open PhysicalPlan (Replaces Admissible Alike KeepsApart admissible_node mem_abroad_node watched_node
  watched_single)

variable {x : Store} {scope : RewriteScope} {t u : PhysicalPlan}

/-- The storage counts the rows that a scan of the whole table gives. -/
theorem pushCount_replaces (htables : ∀ n, (x.table n).Sound) (ht : t.Admissible x)
    (h : pushCount t = some u) : Replaces x t u ∧ u.Admissible x := by
  unfold pushCount at h
  split at h
  · rename_i group g table cs i below
    cases h
    obtain ⟨hcheck, _, hbelow⟩ := admissible_node.1 ht
    obtain ⟨hscan, ⟨htable, hpart⟩, _⟩ := admissible_node.1 (hbelow _ (List.mem_singleton.2 rfl))
    obtain ⟨harity, _, hdetails⟩ := Operator.check_eq_ok.1 hscan
    have hnone : below = [] := by
      refine List.eq_nil_of_length_eq_zero ?_
      simpa [Arity.admits, Operator.arity, Operator.shape] using harity
    obtain rfl := hpart rfl
    subst hnone
    have hcount : Admissible x (.node group (.rowCount table ⟨"count", .long, false⟩) []) :=
      admissible_node.2 ⟨rfl, rfl, List.forall_mem_nil _⟩
    have hapart : KeepsApart (.node group (.projection .count) [.node g (.scan table cs 0 1) []])
        (.node group (.rowCount table ⟨"count", .long, false⟩) []) :=
      ⟨rfl, rfl, fun c hc => by simp [mem_abroad_node] at hc⟩
    refine ⟨⟨rfl, rfl, fun b => rfl, hapart, fun s hs => ?_⟩, hcount⟩
    have hfaults : table.faults = .none := htable ▸ rfl
    have hunread : (s.table table).unread = (x.table table.number).unread :=
      Store.table_of_unread hs table.number
    have hcolumns : ∀ c ∈ cs, c ∈ (s.table table).columns := by
      intro c hc
      have hmem := Operator.checkColumns_eq_ok.1 hdetails c hc
      rw [htable] at hmem
      have he : (s.table table).unread.columns = (x.table table.number).unread.columns :=
        congrArg Table.columns hunread
      exact he ▸ hmem
    obtain ⟨places, hplaces⟩ := Table.positions_ok hcolumns
    have hstream := TupleStream.scan_whole (s := s.store) (congrArg Faults.scanFailure hfaults) hplaces
    unfold Alike
    rw [watched_single, watched_node, watched_node]
    simp only [List.mapM_nil, pure, Except.pure, Except.bind, Lowering.stream, hstream]
    change Except.Both _
      (.ok (TupleStream.project .count [⟨"count", .long, false⟩]
        (.ofCursor table TupleStream.unbounded ⟨cs, places, 0, 1, none⟩)))
      (.ok (TupleStream.rowCount table [⟨"count", .long, false⟩]))
    refine .ok (TupleStream.Sim.deferred fun s₁ s₁' hs₁ => ?_)
    have hunread₁ : (s₁.table table).unread = (x.table table.number).unread :=
      Store.table_of_unread hs₁.1 table.number
    have hrows : (s₁.table table).rows = (x.table table.number).rows :=
      Table.rows_of_unread hunread₁
    have hplaces₁ : (s₁.table table).positions cs = .ok places := by
      rw [← hplaces, ← Table.positions_unread, hunread₁, ← hunread, Table.positions_unread]
    have hremaining := Table.remaining_whole hplaces₁
    have hbound := (htables table.number).length_le
    obtain ⟨s₂, hcount, hs₂, hb₂⟩ := TupleStream.count_ofCursor table TupleStream.unbounded
      (c := ⟨cs, places, 0, 1, none⟩) (s := s₁) (hrows ▸ (htables table.number).ascending)
      (by rw [hremaining, List.length_map, hrows]; exact Nat.le_trans hbound (by decide)) 0
    rw [hremaining, List.length_map, Nat.zero_add, hrows] at hcount
    have hreported : table.countRows s₁'.store =
        .ok (UInt64.ofNat (x.table table.number).rows.length) := by
      have hrows' : (table.table s₁'.store).rows = (x.table table.number).rows :=
        Table.rows_of_unread (Store.table_of_unread hs₁.2.1 table.number)
      simp only [TableHandle.countRows, hfaults, Faults.none, Table.countRows, hrows']
    have hcounted : (TupleStream.ofCursor table TupleStream.unbounded ⟨cs, places, 0, 1, none⟩).aggregate
        .count s₁ = (.ok (.long (Int64.ofNat (x.table table.number).rows.length)), s₂) := by
      rw [TupleStream.aggregate, hcount]
      rfl
    simp only [hcounted, hreported]
    exact .ok (.ofList (List.forall_mem_singleton.2 ⟨rfl, rfl⟩))
      ⟨hs₂.trans hs₁.1, hs₁.2.1, hb₂.trans hs₁.2.2⟩
  · cases h

/-- A valid node with one input has no further ones. -/
theorem eq_single {op : Operator} {inputs : List PhysicalPlan}
    (hcheck : op.check (inputs.map PhysicalPlan.columns) = .ok ())
    (hop : op.arity = .exactly 1) : ∃ input, inputs = [input] := by
  have harity := (Operator.check_eq_ok.1 hcheck).1
  rw [hop, List.length_map] at harity
  exact List.length_eq_one_iff.1 (by simpa [Arity.admits] using harity)

/-- Operators that take and read the same are valid over the same inputs. -/
theorem check_of_requires {op op' : Operator} {inputs : List (List Column)}
    (h : op.check inputs = .ok ()) (harity : op'.arity = op.arity)
    (hrequires : op'.requires = op.requires) (hdetails : op'.checkDetails inputs = .ok ()) :
    op'.check inputs = .ok () := by
  obtain ⟨hadmits, hrequired, _⟩ := Operator.check_eq_ok.1 h
  rw [Operator.checkRequired_eq_ok, ← hrequires] at hrequired
  exact Operator.check_eq_ok.2 ⟨harity ▸ hadmits, Operator.checkRequired_eq_ok.2 hrequired, hdetails⟩

/-- A node that resolves nothing reads the late-bound values that its input reads. -/
theorem bind_single {op : Operator} (hop : op.bindings = []) {group : GroupId}
    {input : PhysicalPlan} {b : Bindings} :
    PhysicalPlan.bind (.node group op [input]) b = input.bind b := by
  simp only [PhysicalPlan.bind, PlanTree.fold_node, hop, List.map_cons, List.map_nil]
  cases PlanTree.fold _ input with
  | error e => rfl
  | ok _ => rfl

/-- A limit over some way of sorting keeps what a sort with a limit keeps. -/
theorem limit_replaces {group g : GroupId} {bounds : RowLimit} {order : SortOrder} {op : Operator}
    {inputs : List PhysicalPlan} (ht : Admissible x (.node group (.limit bounds) [.node g op inputs]))
    (hone : op.arity = .exactly 1) (hrequires : op.requires = order.map (·.1))
    (hcolumns : ∀ input, op.columns input = input) (hbindings : op.bindings = [])
    (htouches : ∀ gs, op.touches gs = [])
    (hstream : ∀ s gs cs (v v' : TupleStream), v.Sim (.over x) (Tuple.Laid cs) v' →
      ∃ w, Lowering.stream ⟨0, 0, true⟩ s op cs gs [op.watch v] = .ok w ∧
        (w.limit bounds).Sim (.over x) (Tuple.Laid cs) (v'.limitingSort order bounds)) :
    Replaces x (.node group (.limit bounds) [.node g op inputs])
        (.node group (.limitingSort order bounds) inputs) ∧
      Admissible x (.node group (.limitingSort order bounds) inputs) := by
  obtain ⟨_, _, hbelow⟩ := admissible_node.1 ht
  obtain ⟨hcheck, _, hinputs⟩ := admissible_node.1 (hbelow _ (List.mem_singleton.2 rfl))
  obtain ⟨input, rfl⟩ := eq_single hcheck hone
  have hsorted : PhysicalPlan.columns (.node g op [input]) = input.columns :=
    (PhysicalPlan.columns_node _ _ _).trans (hcolumns _)
  have hlimited : PhysicalPlan.columns (.node group (.limit bounds) [.node g op [input]]) =
      input.columns := (PhysicalPlan.columns_node _ _ _).trans hsorted
  have hfused : PhysicalPlan.columns (.node group (.limitingSort order bounds) [input]) =
      input.columns := PhysicalPlan.columns_node _ _ _
  constructor
  · refine ⟨rfl, hfused.trans hlimited.symm, fun b => ?_,
      .fuse (fun _ => rfl) htouches fun _ => rfl, fun s hs => ?_⟩
    · rw [bind_single rfl, bind_single rfl, bind_single hbindings]
    · have hself := (Replaces.refl (hinputs input (List.mem_singleton.2 rfl))).alike s hs
      unfold Alike at hself ⊢
      rw [watched_single, watched_single, watched_single, hlimited, hsorted, hcolumns]
      generalize PhysicalPlan.watched s input = r at hself
      cases hself with
      | error e => exact .error e
      | @ok v _ hsim =>
        obtain ⟨w, hw, hlimit⟩ := hstream s [input.group] input.columns v v hsim
        simp only [Except.bind, hw]
        exact .ok hlimit
  · exact admissible_node.2 ⟨check_of_requires hcheck hone.symm hrequires.symm rfl, rfl, hinputs⟩

theorem fuseLimit_replaces (ht : t.Admissible x) (h : fuseLimit t = some u) :
    Replaces x t u ∧ u.Admissible x := by
  unfold fuseLimit at h
  split at h
  · rename_i group bounds g order inputs
    cases h
    refine limit_replaces ht rfl rfl (fun _ => rfl) rfl (fun _ => rfl) fun s gs cs v v' hsim => ?_
    refine ⟨(v.watched order).sort order, rfl, ?_⟩
    rw [TupleStream.sort_eq]
    exact hsim.limit_limitingSort (Bond.over_faithful x) rfl _ (TupleStream.sort_sorts _ cs)
  · rename_i group bounds g order chunk inputs
    cases h
    refine limit_replaces ht rfl rfl (fun _ => rfl) rfl (fun _ => rfl) fun s gs cs v v' hsim => ?_
    refine ⟨(v.watched order).externalSort .plain order chunk true cs, rfl, ?_⟩
    rw [TupleStream.externalSort_eq]
    exact hsim.limit_limitingSort (Bond.over_faithful x) rfl _ (TupleStream.externalSort_sorts _ _ cs)
  · cases h

/-- A sort gives the same whether it spills or not. -/
theorem spillSort_replaces (ht : t.Admissible x) (h : spillSort scope t = .ok (some u)) :
    Replaces x t u ∧ u.Admissible x := by
  unfold spillSort at h
  split at h
  · rename_i group order input others
    obtain ⟨hcheck, hop, hinputs⟩ := admissible_node.1 ht
    obtain ⟨_, he⟩ := eq_single hcheck rfl
    obtain ⟨rfl, rfl⟩ := List.cons.inj he
    obtain ⟨rows, _, h⟩ := Except.bind_eq_ok.1 h
    simp only at h
    split at h
    · cases h
    · cases h
      refine ⟨⟨rfl, ?_, fun b => ?_, .operator rfl fun _ => rfl, fun s hs => ?_⟩,
        admissible_node.2 ⟨check_of_requires hcheck rfl rfl rfl, rfl, hinputs⟩⟩
      · rw [PhysicalPlan.columns_node, PhysicalPlan.columns_node]
        rfl
      · rw [bind_single rfl, bind_single rfl]
      · have hself := (Replaces.refl (hinputs input List.mem_cons_self)).alike s hs
        unfold Alike at hself ⊢
        simp only [watched_single, PhysicalPlan.columns_node, List.map_cons, List.map_nil,
          List.headD_cons, Operator.columns]
        generalize PhysicalPlan.watched s input = r at hself
        cases hself with
        | error e => exact .error e
        | ok hsim => exact .ok (hsim.sort_externalSort (Bond.over_faithful x) rfl _)
  · cases h

/-- The rules that keep all results. -/
def keepsResults : Rule → Bool
  | countPushdown => true
  | limitingSortMerge => true
  | externalSort => true
  | _ => false

theorem apply_replaces {r : Rule} (hr : r.keepsResults = true) (htables : ∀ n, (x.table n).Sound)
    (ht : t.Admissible x) (h : r.apply scope t = .ok (some u)) :
    Replaces x t u ∧ u.Admissible x := by
  cases r with
  | countPushdown => exact pushCount_replaces htables ht (Except.ok.inj h)
  | limitingSortMerge => exact fuseLimit_replaces ht (Except.ok.inj h)
  | externalSort => exact spillSort_replaces ht h
  | _ => cases hr

end Rule

/-! ## Passes -/

namespace Rewritten

open PhysicalPlan (Replaces Admissible admissible_node)

variable {x : Store} {scope : RewriteScope} {rules : List Rule} {t : PhysicalPlan} {w : Rewritten}
  (htables : ∀ n, (x.table n).Sound) (hrules : ∀ r ∈ rules, r.keepsResults = true)
include htables hrules

theorem step_replaces (ht : t.Admissible x) {w : { w : Rewritten // Rule.Lighter t w.plan }}
    (h : step scope t rules = .ok w) : Replaces x t w.1.plan ∧ w.1.plan.Admissible x := by
  induction rules with
  | nil =>
    cases h
    exact ⟨.refl ht, ht⟩
  | cons r rest ih =>
    unfold step at h
    split at h
    · cases h
    · rename_i u hu
      cases h
      exact Rule.apply_replaces (hrules r List.mem_cons_self) htables ht hu
    · exact ih (fun r hr => hrules r (List.mem_cons_of_mem _ hr)) h

omit htables hrules in
/-- The node over inputs that take the place of its own. -/
theorem node_replaces {group : GroupId} {op : Operator} {inputs : List PhysicalPlan}
    {below : List Rewritten} (ht : Admissible x (.node group op inputs))
    (h : List.Forall₂ (fun t w => Replaces x t w.plan ∧ w.plan.Admissible x) inputs below) :
    Replaces x (.node group op inputs) (.node group op (below.map plan)) ∧
      Admissible x (.node group op (below.map plan)) := by
  obtain ⟨hcheck, hop, hinputs⟩ := admissible_node.1 ht
  have hbelow : (below.map plan).map PhysicalPlan.columns = inputs.map PhysicalPlan.columns ∧
      ∀ u ∈ below.map plan, u.Admissible x := by
    clear ht hcheck hinputs
    induction h with
    | nil => exact ⟨rfl, List.forall_mem_nil _⟩
    | cons hw _ ih =>
      simp only [List.map_cons, hw.1.columns_eq, ih.1, List.forall_mem_cons]
      exact ⟨trivial, hw.2, ih.2⟩
  refine ⟨.node ht (List.forall₂_map_right_iff.2 (h.imp fun _ _ hw => hw.1)), ?_⟩
  exact admissible_node.2 ⟨hbelow.1 ▸ hcheck, hop, hbelow.2⟩

theorem topDown_replaces (ht : t.Admissible x) (h : topDown scope rules t = .ok w) :
    Replaces x t w.plan ∧ w.plan.Admissible x := by
  induction hn : t.weight using Nat.strongRecOn generalizing t w with
  | ind n ih =>
    rw [topDown] at h
    obtain ⟨⟨⟨⟨group, op, inputs⟩, fired⟩, hlighter⟩, hstep, h⟩ := Except.bind_eq_ok.1 h
    obtain ⟨below, hbelow, h⟩ := Except.bind_eq_ok.1 h
    cases h
    obtain ⟨hroot, hadmissible⟩ := step_replaces htables hrules ht hstep
    have hinputs := (admissible_node.1 hadmissible).2.2
    have hall : List.Forall₂ (fun t w => Replaces x t w.plan ∧ w.plan.Admissible x) inputs below := by
      have hmap : List.Forall₂ (fun c w => c ∈ inputs ∧ topDown scope rules c = .ok w)
          (inputs.attach.map Subtype.val) below :=
        List.forall₂_map_left_iff.2 ((Except.mapM_eq_ok.1 hbelow).imp fun c w hw => ⟨c.2, hw⟩)
      rw [List.attach_map_subtype_val] at hmap
      exact hmap.imp fun c w hw =>
        ih _ (hn ▸ hlighter c hw.1) (hinputs c hw.1) hw.2 rfl
    obtain ⟨hnode, hnode'⟩ := node_replaces hadmissible hall
    exact ⟨hroot.trans hnode, hnode'⟩

theorem bottomUp_replaces (ht : t.Admissible x) (h : bottomUp scope rules t = .ok w) :
    Replaces x t w.plan ∧ w.plan.Admissible x := by
  induction t using PlanTree.induct generalizing w with
  | node group op inputs ih =>
    have hinputs := (admissible_node.1 ht).2.2
    rw [bottomUp, PlanTree.fold_node] at h
    obtain ⟨below, hbelow, h⟩ := Except.bind_eq_ok.1 h
    obtain ⟨⟨root, hlighter⟩, hstep, h⟩ := Except.bind_eq_ok.1 h
    cases h
    have hall : List.Forall₂ (fun t w => Replaces x t w.plan ∧ w.plan.Admissible x) inputs below := by
      have hmap := List.forall₂_map_left_iff.1 (Except.mapM_eq_ok.1 hbelow)
      exact (forall₂_mem hmap).imp fun c w hw => ih c hw.1 (hinputs c hw.1) hw.2
    obtain ⟨hnode, hnode'⟩ := node_replaces ht hall
    obtain ⟨hroot, hroot'⟩ := step_replaces htables hrules hnode' hstep
    exact ⟨hnode.trans hroot, hroot'⟩

theorem pass_replaces (ht : t.Admissible x) (h : pass scope rules t = .ok w) :
    Replaces x t w.plan ∧ w.plan.Admissible x := by
  unfold pass at h
  split at h
  · exact topDown_replaces htables hrules ht h
  · exact bottomUp_replaces htables hrules ht h

end Rewritten

namespace RewriteOutcome

open PhysicalPlan (Replaces)

variable {x : Store} {scope : RewriteScope} {rules : List Rule} {t : PhysicalPlan}
  {out : RewriteOutcome}

theorem proceed_replaces (htables : ∀ n, (x.table n).Sound)
    (hrules : ∀ r ∈ rules, r.keepsResults = true) {made left : Nat} {w : Rewritten}
    (ht : w.plan.Admissible x) (h : proceed scope rules made w left = pure out) :
    Replaces x w.plan out.plan ∧ out.plan.Admissible x := by
  induction left generalizing made w with
  | zero => cases h
  | succ left ih =>
    rw [proceed] at h
    cases hpass : Rewritten.pass scope rules w.plan with
    | error c =>
      rw [hpass] at h
      cases h
    | ok next =>
      obtain ⟨hnext, hnext'⟩ := Rewritten.pass_replaces htables hrules ht hpass
      rw [hpass] at h
      change (if next.fired.isEmpty then pure ⟨next.plan, made + 1, w.fired⟩
        else proceed scope rules (made + 1) ⟨next.plan, w.fired ++ next.fired⟩ left) = _ at h
      split at h
      · cases h
        exact ⟨hnext, hnext'⟩
      · obtain ⟨hrest, hrest'⟩ := ih (w := ⟨next.plan, w.fired ++ next.fired⟩) hnext' h
        exact ⟨hnext.trans hrest, hrest'⟩

end RewriteOutcome

/-! ## Executions -/

/-- Whether a run comes to these tuples and this ending. Where sorted runs cannot be written it may
break off. -/
def Run.ComesTo (limits : RunLimits) (rows : List Tuple) (z : Ending) (r : Run) : Prop :=
  (r.rows = rows ∧ r.ending.Shows z) ∨
    (limits.canSpill = false ∧ r.ending = .failed .spill ∧ r.rows <+: rows)

/-- Executions that are refused alike, or that come to the same tuples and the same ending. -/
def SameResults (limits : RunLimits) (x y : Fallible QueryError Run) : Prop :=
  x = y ∨ ∃ r r' rows z, x = pure r ∧ y = pure r' ∧ r.ComesTo limits rows z ∧ r'.ComesTo limits rows z

namespace PhysicalPlan

variable {t u : PhysicalPlan} {limits : RunLimits} {q : QueryContext} {e : EngineState}
  {x y : Fallible QueryError Run}

/-- Whether no sort of a plan meets keys of two kinds or more tuples than can be counted. -/
def SortsUniformly (t : PhysicalPlan) (q : QueryContext) (e : EngineState) : Prop :=
  ∀ v, t.watched (q.runState e) = .ok v → (v.run (q.runState e)).ending ≠ .failed .cancelled

theorem comesTo_of_like {sees : Groups} {r r' : Run}
    (h : (Bond.seeing (!limits.canSpill) sees).Like r r') : r.ComesTo limits r'.rows r'.ending := by
  cases h with
  | alike hrows hends => exact .inl ⟨hrows, hends⟩
  | excused hend hspill hrows =>
    obtain ⟨hcan, rfl⟩ := hspill
    exact .inr ⟨by simpa using hcan, hend, hrows⟩

/-- Runs over the same tables are alike if the first one is not cancelled. -/
theorem eq_of_like {store : Store} {r r' : Run} (h : (Bond.over store).Like r r')
    (hlive : r.ending ≠ .failed .cancelled) : r.rows = r'.rows ∧ r.ending = r'.ending := by
  cases h with
  | alike hrows _ hends => exact ⟨hrows, hends.resolve_left id⟩
  | excused hend hcancelled =>
    cases hcancelled
    exact absurd hend hlive

/-- Plans that are not refused run as they do when they are watched. -/
theorem CanComeTo.watched (hx : t.CanComeTo limits q e x)
    (happart : 0 < limits.maxWorkers → t.ResultsApart)
    (ht : t.Admissible e.store) (hbind : t.bind q.bindings = .ok ()) (hlive : q.cancelled = false)
    (hroom : limits.channelCapacity < Lowering.channelBound) :
    (∃ f, t.watched (q.runState e) = .error f ∧ x = f.refusal) ∨
      ∃ v r, t.watched (q.runState e) = .ok v ∧ x = pure r ∧
        ((v.run (q.runState e)).ending ≠ .failed .cancelled →
          r.ComesTo limits (v.run (q.runState e)).rows (v.run (q.runState e)).ending) := by
  have hinline := alike_inline ht (s := q.runState e) rfl
  have hcases := hx.cases (fun hworkers => ht.apart (happart hworkers)) hbind hlive hroom (!limits.canSpill)
  rw [Bool.or_not_self] at hcases
  unfold Alike at hinline
  generalize PhysicalPlan.watched (q.runState e) t = w at hinline
  rcases hcases with ⟨f, hf, hrefused⟩ | ⟨v, r, hv, hr, hlike⟩
  · rw [hf] at hinline
    cases hinline
    exact .inl ⟨f, rfl, hrefused⟩
  · rw [hv] at hinline
    cases hinline with
    | @ok w _ hsim =>
      refine .inr ⟨w, r, rfl, hr, fun hlive => ?_⟩
      have hself : (Bond.over e.store).state (q.runState e) (q.runState e) := ⟨rfl, rfl, rfl⟩
      have hwatched := hsim.run (Bond.over_faithful e.store).counted _ hself
      obtain ⟨hrows, hends⟩ := eq_of_like hwatched hlive
      rw [hrows, hends]
      exact comesTo_of_like hlike

theorem Replaces.sameResults (h : Replaces e.store t u) (ht : t.Admissible e.store)
    (hu : u.Admissible e.store) (happart : 0 < limits.maxWorkers → t.ResultsApart) (hsorts : t.SortsUniformly q e)
    (hroom : limits.channelCapacity < Lowering.channelBound) (hx : t.CanComeTo limits q e x)
    (hy : u.CanComeTo limits q e y) : SameResults limits x y := by
  have hsame := (h.bind_eq q.bindings).symm
  rcases bound_or_refused limits hsame with ⟨hbind, hlive⟩ | ⟨heq, hrefused⟩
  · have halike := h.alike (q.runState e) rfl
    unfold Alike at halike
    rcases hx.watched happart ht hbind hlive hroom with ⟨f, hf, rfl⟩ | ⟨v, r, hv, rfl, hr⟩ <;>
    rcases hy.watched (fun hworkers => h.apart.resultsApart (happart hworkers)) hu (hsame.symm.trans hbind) hlive hroom with
      ⟨f', hf', rfl⟩ | ⟨v', r', hv', rfl, hr'⟩
    · rw [hf, hf'] at halike
      cases halike
      exact .inl rfl
    · rw [hf, hv'] at halike
      cases halike
    · rw [hv, hf'] at halike
      cases halike
    · rw [hv, hv'] at halike
      cases halike with
      | ok hsim =>
        have hself : (Bond.over e.store).state (q.runState e) (q.runState e) := ⟨rfl, rfl, rfl⟩
        have hwatched := hsim.run (Bond.over_faithful e.store).counted _ hself
        have hquiet := hsorts v hv
        obtain ⟨hrows, hends⟩ := eq_of_like hwatched hquiet
        rw [← hrows, ← hends] at hr'
        exact .inr ⟨r, r', _, _, rfl, rfl, hr hquiet, hr' hquiet⟩
  · exact .inl ((hx.eq_execute hrefused).trans
      (heq.trans (hy.eq_execute (heq ▸ hrefused)).symm))

end PhysicalPlan

/-- Rewriting with rules that keep results does so, wherever and however often they fire and whenever
the workers of either plan pull, if those of the first one stay apart. -/
theorem RewriteOutcome.rewrite_same_results {scope : RewriteScope} {rules : List Rule}
    {t : PhysicalPlan} {out : RewriteOutcome} {limits : RunLimits} {q : QueryContext}
    {e : EngineState} (hrules : ∀ r ∈ rules, r.keepsResults = true)
    (hrewrite : rewrite scope rules t = pure out)
    (htables : ∀ x ∈ e.store.tables, x.Reachable) (ht : t.Admissible e.store)
    (happart : 0 < limits.maxWorkers → t.ResultsApart) (hsorts : t.SortsUniformly q e)
    (hroom : limits.channelCapacity < Lowering.channelBound) :
    out.plan.columns = t.columns ∧ (t.ResultsApart → out.plan.ResultsApart) ∧ ∀ x y,
      t.CanComeTo limits q e x → out.plan.CanComeTo limits q e y → SameResults limits x y := by
  have hsound := Store.table_sound htables
  obtain ⟨hreplaces, hout⟩ := proceed_replaces hsound hrules (w := ⟨t, []⟩) ht hrewrite
  exact ⟨hreplaces.columns_eq, hreplaces.apart.resultsApart,
    fun x y hx hy => hreplaces.sameResults ht hout happart hsorts hroom hx hy⟩

/-! ### Two numbers -/

namespace TwoNumbers

def column : Column := ⟨"t.x", .long, false⟩

def table : Table := ⟨"t", [column], [(0, [.long 2]), (1, [.long 1])], 2, [], 0⟩

theorem table_reachable : table.Reachable := by
  have hempty := Table.Reachable.empty "t" [column]
  have htwo : (Table.empty "t" [column]).insert [column] [.long 2] =
      .ok (0, ⟨"t", [column], [(0, [.long 2])], 1, [], 0⟩) := by decide
  have hone : (⟨"t", [column], [(0, [.long 2])], 1, [], 0⟩ : Table).insert [column] [.long 1] =
      .ok (1, table) := by decide
  exact .insert (.insert hempty (by decide) htwo) (by decide) hone

def engine : EngineState := ⟨⟨[table]⟩, .empty⟩

def handle : TableHandle := engine.store.handle 0

def query : QueryContext := ⟨.none, .standard, .empty, 0, false⟩

def limits : RunLimits := ⟨2, 0, true⟩

def scope : RewriteScope :=
  ⟨engine.store, .empty, .standard, { PlannerConfig.standard with matchOrder := .bottomUp }, .none⟩

def scan (group : GroupId) (partition : Nat) : PhysicalPlan :=
  .node group (.scan handle [column] partition 1) []

/-- The second of the sorted numbers. -/
def second : PhysicalPlan :=
  .node 0 (.limit ⟨1, 1⟩) [.node 1 (.externalSort [(column, .ascending)] 1) [scan 2 0]]

def count (partition : Nat) : PhysicalPlan := .node 0 (.projection .count) [scan 0 partition]

/-- The numbers that are among the results of a sub-query. -/
def among : Predicate := .atom (.oneOf (.column column) [.subquery 5 column]) false

/-- The first of the sorted numbers that a sub-query lists. The input of the sort looks at the results
on a worker. -/
def firstAmong : PhysicalPlan :=
  .node 0 (.subselect among)
    [.node 0 (.limit ⟨0, 1⟩)
      [.node 1 (.sort [(column, .ascending)]) [.node 0 (.filter among) [scan 0 0]]], scan 5 0]

/-- The same without a node of another group between the filter and its consumer. -/
def firstAmongFused : PhysicalPlan :=
  .node 0 (.subselect among)
    [.node 0 (.limitingSort [(column, .ascending)] ⟨0, 1⟩) [.node 0 (.filter among) [scan 0 0]],
      scan 5 0]

theorem scan_admissible (group : GroupId) : (scan group 0).Admissible engine.store :=
  PhysicalPlan.admissible_node.2 ⟨by decide, ⟨rfl, fun _ => rfl⟩, List.forall_mem_nil _⟩

theorem second_admissible : second.Admissible engine.store := by
  have hsort : PhysicalPlan.Admissible engine.store
      (.node 1 (.externalSort [(column, .ascending)] 1) [scan 2 0]) :=
    PhysicalPlan.admissible_node.2 ⟨by decide, rfl, List.forall_mem_singleton.2 (scan_admissible 2)⟩
  exact PhysicalPlan.admissible_node.2 ⟨by decide, rfl, List.forall_mem_singleton.2 hsort⟩

theorem second_sortsUniformly : second.SortsUniformly query engine := by
  intro v hv
  cases hv
  decide +kernel

end TwoNumbers

open TwoNumbers in
/-- A limit over a sort that spills becomes a sort with a limit, over a scan on a worker. -/
theorem RewriteOutcome.rewrite_same_results_second : ∃ out u,
    rewrite scope [.countPushdown, .limitingSortMerge, .externalSort] second = pure out ∧
      out.fired = [.limitingSortMerge] ∧ out.plan.columns = second.columns ∧
      out.plan.ResultsApart ∧
      PhysicalPlan.Schedules limits (query.runState engine) out.plan out.plan u ∧
      SameResults limits (second.execute limits query engine)
        (pure (u.run (query.runState engine))) := by
  have hrewrite : rewrite scope [.countPushdown, .limitingSortMerge, .externalSort] second =
      pure ⟨.node 0 (.limitingSort [(column, .ascending)] ⟨1, 1⟩) [scan 2 0], 2,
        [.limitingSortMerge]⟩ := by rfl
  have hrules : ∀ r ∈ [Rule.countPushdown, .limitingSortMerge, .externalSort],
      r.keepsResults = true := by decide
  have hroom : limits.channelCapacity < Lowering.channelBound := by decide
  obtain ⟨hcolumns, hapart, hsame⟩ := rewrite_same_results hrules hrewrite
    (List.forall_mem_singleton.2 table_reachable) second_admissible
    (fun _ => by decide +kernel) second_sortsUniformly hroom
  have hworker : ∃ u, PhysicalPlan.Schedules limits (query.runState engine)
      (.node 0 (.limitingSort [(column, .ascending)] ⟨1, 1⟩) [scan 2 0])
      (.node 0 (.limitingSort [(column, .ascending)] ⟨1, 1⟩) [scan 2 0]) u :=
    ⟨_, .single (.leaf rfl) (.worker (by decide) (by decide) .empty _) rfl⟩
  obtain ⟨u, hu⟩ := hworker
  exact ⟨_, u, hrewrite, rfl, hcolumns, hapart (by decide +kernel), hu,
    hsame _ _ (.inl rfl) (.inr ⟨_, u, rfl, hu, rfl⟩)⟩

theorem SameResults.rows_eq {limits : RunLimits} (hspill : limits.canSpill = true) {r r' : Run}
    (h : SameResults limits (pure r) (pure r')) : r.rows = r'.rows := by
  have hcomes {r : Run} {rows : List Tuple} {z : Ending} (h : r.ComesTo limits rows z) :
      r.rows = rows := by
    rcases h with h | h
    · exact h.1
    · rw [hspill] at h
      cases h.1
  rcases h with h | ⟨_, _, rows, z, hr, hr', h, h'⟩
  · cases h
    rfl
  · cases hr
    cases hr'
    exact (hcomes h).trans (hcomes h').symm

open TwoNumbers in
/-- A scan of a partition that there is not is refused, but its rows are counted. A worker may look at
results before they are bound, and there may be no such worker in what a plan is rewritten to. -/
theorem RewriteOutcome.rewrite_counts_refused :
    ((count 1).validate = .ok () ∧
      (count 1).execute limits query engine =
        throw (.execution (.storage (.invalidPartition 1 1))) ∧
      ∃ out r, rewrite scope [.countPushdown] (count 1) = pure out ∧
        out.plan.execute limits query engine = pure r ∧
        r.rows = [⟨-1, [⟨"count", .long, false⟩], [.long 2]⟩] ∧ r.ending = .finished) ∧
    firstAmong.validate = .ok () ∧
    ∃ out x y, rewrite scope [.limitingSortMerge] firstAmong = pure out ∧
      firstAmong.CanComeTo limits query engine x ∧ out.plan.CanComeTo limits query engine y ∧
      ¬ SameResults limits x y := by
  constructor
  · refine ⟨by decide, rfl, ⟨.node 0 (.rowCount handle ⟨"count", .long, false⟩) [], 2,
      [.countPushdown]⟩, _, by rfl, rfl, by rfl, by rfl⟩
  · have hworker : ∃ u, PhysicalPlan.Schedules limits (query.runState engine) firstAmong
        firstAmong u ∧ (u.run (query.runState engine)).rows = [] := by
      -- The filter is pulled on a worker, which finds that no results are bound.
      refine ⟨_, PhysicalPlan.schedules_node.2 ⟨_, .cons ⟨_, .single (.single (.single (.leaf rfl)
        (.inline _) rfl) (.worker (by decide) (by decide) .empty _) rfl) (.inline _) rfl,
        .inline _⟩ (.cons ⟨_, .leaf rfl, .inline _⟩ .nil), rfl⟩, ?_⟩
      decide +kernel
    obtain ⟨u, hu, hnone⟩ := hworker
    obtain ⟨r, hr⟩ : ∃ r, firstAmong.execute limits query engine = pure r := ⟨_, rfl⟩
    have hfused : ∃ r, firstAmongFused.execute limits query engine = pure r ∧
        r.rows = [⟨1, [column], [.long 1]⟩] := ⟨_, rfl, by decide +kernel⟩
    obtain ⟨r', hr', hone⟩ := hfused
    refine ⟨by decide, ⟨firstAmongFused, 2, [.limitingSortMerge]⟩, _, _, by rfl,
      .inr ⟨r, u, hr, hu, rfl⟩, .inl hr'.symm, fun hsame => ?_⟩
    have hrows := hsame.rows_eq rfl
    rw [hnone, hone] at hrows
    cases hrows

end QueryEngine
