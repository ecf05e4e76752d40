import QueryEngine.Proofs.Effects

/-!
# Results of sub-queries

A node that filters by sub-queries reads each of them to its end before the first of its own tuples
is pulled. It keeps one list of values for every sub-query, taken from the column that the predicate
names first for it; a predicate that names none directly gets the first value of every tuple. All
bindings to the sub-query read this list, whichever column they name.
-/

set_option autoImplicit false

namespace QueryEngine

/-! ## Reading a sub-query -/

namespace TupleStream

/-- The value that a tuple of a sub-query adds to its results, if it can be read. -/
def read? (column : Option Column) (u : Tuple) : Option Value :=
  match resultOf column u with
  | .ok found => found
  | .error _ => none

theorem read?_of_ok {column : Option Column} {u : Tuple} {found : Option Value}
    (h : resultOf column u = .ok found) : read? column u = found := by
  rw [read?, h]

/-- The tuples that sub-queries give when they are read one after another. -/
def subqueryTuples (p : Predicate) : List (GroupId × TupleStream) → RunState → List (List Tuple)
  | [], _ => []
  | (group, t) :: rest, s =>
    let opened := { s with bindings := s.bindings.openSubquery group }
    let step := fun () => bindTuple group (columnRead? p group)
    t.taken step () opened :: subqueryTuples p rest (t.drain step () opened).state

variable {own : Groups} {P : Tuple → Prop} {g : GroupId}

/-- Reading a sub-query appends what its tuples add, one after another. -/
theorem drain_bindTuple (hg : ¬ own g) (column : Option Column) (t : TupleStream) :
    t.Keeps own P → ∀ {s : RunState} {vs : List Value}, s.bindings.subquery? g = some vs →
      (t.drain (fun () => bindTuple g column) () s).result = .ok () →
      (∀ u ∈ t.taken (fun () => bindTuple g column) () s,
        P u ∧ ∃ found, resultOf column u = .ok found) ∧
      (t.drain (fun () => bindTuple g column) () s).state.bindings.subquery? g =
        some (vs ++ (t.taken (fun () => bindTuple g column) () s).filterMap (read? column)) := by
  induction t using TupleStream.induct with
  | step t ih =>
    intro h s vs hs
    rw [drain_eq, taken_eq]
    have hpull := h.pull s
    have rests := ih s
    generalize t.pull s = r at hpull rests
    cases r with
    | failed e s' =>
      intro hok
      cases hok
    | crashed c s' rest =>
      intro hok
      cases hok
    | finished s' rest =>
      intro _
      have hsame : s'.bindings.subquery? g = some vs := (hpull.1 g hg).trans hs
      simpa [Reply.drain, Reply.taken] using hsame
    | row u s' rest =>
      obtain ⟨hu, hs', hrest⟩ := hpull
      have hsame : s'.bindings.subquery? g = some vs := (hs' g hg).trans hs
      simp only [Reply.drain, Reply.taken, bindTuple]
      cases hread : resultOf column u with
      | error c =>
        intro hok
        cases hok
      | ok found =>
        have hvalue := read?_of_ok hread
        cases found with
        | none =>
          intro hok
          obtain ⟨hall, hlast⟩ := rests _ _ _ rfl hrest hsame hok
          refine ⟨fun v hv => ?_, ?_⟩
          · rcases List.mem_cons.1 hv with rfl | hv
            · exact ⟨hu, none, hread⟩
            · exact hall v hv
          · rwa [List.filterMap_cons_none hvalue]
        | some v =>
          intro hok
          have happend : (s'.bindings.append g v).subquery? g = some (vs ++ [v]) := by
            rw [Bindings.append, Bindings.subquery?_setSubquery_self, hsame]
            rfl
          obtain ⟨hall, hlast⟩ := rests _ _ _ rfl hrest happend hok
          refine ⟨fun w hw => ?_, ?_⟩
          · rcases List.mem_cons.1 hw with rfl | hw
            · exact ⟨hu, some v, hread⟩
            · exact hall w hw
          · rw [List.filterMap_cons_some hvalue, List.append_cons]
            exact hlast

end TupleStream

/-! ## Reading all sub-queries -/

/-- What a sub-query has come to in a state: tuples laid out as its plan says, and their values
under its group. -/
structure PhysicalPlan.Bound (p : Predicate) (s : RunState) (sub : PhysicalPlan)
    (us : List Tuple) : Prop where
  laid : ∀ u ∈ us, u.Laid sub.columns
  read : ∀ u ∈ us, ∃ found, TupleStream.resultOf (TupleStream.columnRead? p sub.group) u = .ok found
  results : s.bindings.subquery? sub.group =
    some (us.filterMap (TupleStream.read? (TupleStream.columnRead? p sub.group)))

namespace PhysicalPlan

theorem Bound.rebound {p : Predicate} {own : Groups} {s s' : RunState} {sub : PhysicalPlan}
    {us : List Tuple} (h : sub.Bound p s us) (hs : s.Rebound own s') (hg : ¬ own sub.group) :
    sub.Bound p s' us :=
  ⟨h.laid, h.read, (hs sub.group hg).trans h.results⟩

/-- Sub-queries of different groups are bound one after another, and none of them changes what was
bound before. -/
theorem bindSubqueries_bound (p : Predicate) {apart : List GroupId} {subs : List PhysicalPlan}
    {ts : List TupleStream} (h : List.Forall₂ Describes subs ts)
    (hmem : ∀ sub ∈ subs, sub.group ∈ apart) (hdistinct : (subs.map PlanTree.group).Nodup)
    (hapart : ∀ sub ∈ subs, ∀ g ∈ sub.boundGroups, g ∉ apart) :
    ∀ {s : RunState},
      (TupleStream.bindSubqueries p ((subs.map PlanTree.group).zip ts) s).result = .ok () →
      List.Forall₂
        (Bound p (TupleStream.bindSubqueries p ((subs.map PlanTree.group).zip ts) s).state) subs
        (TupleStream.subqueryTuples p ((subs.map PlanTree.group).zip ts) s) := by
  induction h with
  | nil => exact fun _ => .nil
  | @cons sub t subs ts ht hrest ih =>
    intro s hok
    have hnodup := List.nodup_cons.1 hdistinct
    have hown : sub.group ∉ sub.boundGroups :=
      fun hg => hapart sub List.mem_cons_self _ hg (hmem sub List.mem_cons_self)
    have hmem' : ∀ sub ∈ subs, sub.group ∈ apart := fun u hu => hmem u (List.mem_cons_of_mem _ hu)
    have hapart' : ∀ sub ∈ subs, ∀ g ∈ sub.boundGroups, g ∉ apart :=
      fun u hu => hapart u (List.mem_cons_of_mem _ hu)
    rw [List.map_cons, List.zip_cons_cons] at hok ⊢
    simp only [TupleStream.bindSubqueries, TupleStream.subqueryTuples] at hok ⊢
    have hopened : (s.bindings.openSubquery sub.group).subquery? sub.group = some [] :=
      Bindings.subquery?_setSubquery_self _ _ _
    have hread := TupleStream.drain_bindTuple hown (TupleStream.columnRead? p sub.group) t ht
      (s := { s with bindings := s.bindings.openSubquery sub.group }) hopened
    generalize t.drain _ _ _ = read at hok hread ⊢
    obtain ⟨f | _, left, s'⟩ := read
    · cases hok
    · obtain ⟨htaken, hresults⟩ := hread rfl
      have hbound : sub.Bound p s' _ :=
        ⟨fun u hu => (htaken u hu).1, fun u hu => (htaken u hu).2, hresults⟩
      -- What the later sub-queries bind is theirs or is bound below them.
      have hlater : s'.Rebound (· ≠ sub.group)
          (TupleStream.bindSubqueries p ((subs.map PlanTree.group).zip ts) s').state := by
        refine TupleStream.Keeps.bindSubqueries p (P := fun _ => True) (fun u hu => ?_)
          (fun k hk => ?_) s'
        · obtain ⟨v, hv, hu⟩ := exists_mem_of_forall₂ hrest hu
          refine .mono (fun k hk => ?_) (fun _ _ => trivial) u hu
          rintro rfl
          exact hapart' v hv _ hk (hmem sub List.mem_cons_self)
        · rintro rfl
          exact hnodup.1 hk
      exact .cons (hbound.rebound hlater fun hne => hne rfl) (ih hmem' hnodup.2 hapart' hok)

end PhysicalPlan

/-! ## Filtering by the results -/

/-- Whether a stream comes to a tuple in a state when it is pulled from another state on. Between two
pulls anything may happen that leaves the results of some sub-queries as they are. -/
inductive TupleStream.ComesTo (kept : Groups) :
    TupleStream → RunState → Tuple → RunState → Prop
  | now {t s u s' rest} : t.pull s = .row u s' rest → ComesTo kept t s u s'
  | later {t s v s₁ rest s₂ u s'} : t.pull s = .row v s₁ rest → s₁.Rebound (¬ kept ·) s₂ →
    ComesTo kept rest s₂ u s' → ComesTo kept t s u s'

theorem TupleStream.ComesTo.rebound {kept own : Groups} {P : Tuple → Prop} {t : TupleStream}
    {s s' : RunState} {u : Tuple} (h : t.ComesTo kept s u s') (ht : t.Keeps own P)
    (hapart : ∀ g, own g → ¬ kept g) : s.Rebound (¬ kept ·) s' := by
  induction h with
  | @now t s u s' rest hpull =>
    have hrow := ht.pull s
    rw [hpull] at hrow
    exact hrow.2.1.mono hapart
  | @later t s v s₁ rest s₂ u s' hpull hquiet _ ih =>
    have hrow := ht.pull s
    rw [hpull] at hrow
    exact ((hrow.2.1.mono hapart).trans hquiet).trans (ih hrow.2.2)

namespace PhysicalPlan

/-- What setting up a filter by sub-queries gives: the stream of the primary input, and one for each
sub-query. -/
theorem lower_subselect {limits : RunLimits} {group : GroupId} {p : Predicate}
    {primary : PhysicalPlan} {subs : List PhysicalPlan} {st st' : LoweringState} {t : TupleStream}
    (hvalid : validate (.node group (.subselect p) (primary :: subs)) = .ok ())
    (hfits : IndexesFit st.run.store (.node group (.subselect p) (primary :: subs)))
    (hlower : Lowering.lower limits (.node group (.subselect p) (primary :: subs)) st =
      (.ok t, st')) :
    ∃ first others, t = .subselect p (subs.map PlanTree.group) (first :: others) ∧
      primary.Describes first ∧ List.Forall₂ Describes subs others := by
  obtain ⟨_, hbelow⟩ := validate_node.1 hvalid
  obtain ⟨_, hinputs⟩ := indexesFit_node.1 hfits
  obtain ⟨ts, st₁, hts, ht, _⟩ := Lowering.lower_node_eq_ok hlower
  obtain ⟨hdescribes, _⟩ :=
    Lowering.connectAll_keeps hbelow hinputs hts
  cases hdescribes with
  | @cons _ first _ others hfirst hothers =>
    cases ht
    exact ⟨first, others, rfl, hfirst, hothers⟩

/-- What a binding to a column of a sub-query resolves to, once the sub-query has given the tuples
`us`: the column that the predicate names first for the sub-query is read, whichever the binding
names. -/
structure ReadsFirst (p : Predicate) (sub : PhysicalPlan) (us : List Tuple) (b : Bindings) (u : Tuple)
    (c : Column) : Prop where
  all : b.resolveAll (some u) (.subquery sub.group c) =
    .ok (us.filterMap (TupleStream.read? (TupleStream.columnRead? p sub.group)))
  one : b.resolve (some u) (.subquery sub.group c) =
    .ok ((us.filterMap (TupleStream.read? (TupleStream.columnRead? p sub.group))).headD .null)
  named_iff : b.resolveAll (some u) (.subquery sub.group c) = .ok (us.map (·.valueOf c)) ↔
    ∀ v ∈ us, TupleStream.resultOf (TupleStream.columnRead? p sub.group) v = .ok (some (v.valueOf c))
  named : c ∈ sub.columns → TupleStream.columnRead? p sub.group = some c →
    b.resolveAll (some u) (.subquery sub.group c) = .ok (us.map (·.valueOf c))

theorem Bound.readsFirst {p : Predicate} {sub : PhysicalPlan} {us : List Tuple} {s : RunState}
    (h : sub.Bound p s us) (u : Tuple) (c : Column) : sub.ReadsFirst p us s.bindings u c := by
  have hall : s.bindings.resolveAll (some u) (.subquery sub.group c) =
      .ok (us.filterMap (TupleStream.read? (TupleStream.columnRead? p sub.group))) := by
    rw [Bindings.resolveAll, Bindings.subquery, h.results]
    rfl
  have hiff : s.bindings.resolveAll (some u) (.subquery sub.group c) =
      .ok (us.map (·.valueOf c)) ↔ ∀ v ∈ us,
        TupleStream.resultOf (TupleStream.columnRead? p sub.group) v = .ok (some (v.valueOf c)) := by
    rw [hall, Except.ok.injEq, List.filterMap_eq_map_iff_forall_eq_some]
    apply forall₂_congr
    intro v hv
    obtain ⟨found, hfound⟩ := h.read v hv
    rw [TupleStream.read?_of_ok hfound, hfound, Except.ok.injEq]
  refine ⟨hall, ?_, hiff, ?_⟩
  · rw [Bindings.resolve, Bindings.subquery, h.results]
    rfl
  · intro hc hcolumn
    apply hiff.2
    intro v hv
    rw [hcolumn]
    exact (h.laid v hv).get?_eq hc

/-- While the primary tuples are filtered, every binding to a sub-query reads the column that the
predicate names first for the sub-query. These are the values of its own column just where every
tuple has the same value in both, above all where both are one column. -/
theorem subquery_bindings_read {limits : RunLimits} {group : GroupId} {p : Predicate}
    {primary : PhysicalPlan} {subs : List PhysicalPlan} {st st' : LoweringState} {t : TupleStream}
    (hvalid : validate (.node group (.subselect p) (primary :: subs)) = .ok ())
    (hfits : IndexesFit st.run.store (.node group (.subselect p) (primary :: subs)))
    (hdistinct : (subs.map PlanTree.group).Nodup)
    (hapart : ∀ u ∈ primary :: subs, ∀ g ∈ u.boundGroups, g ∉ subs.map PlanTree.group)
    (hlower : Lowering.lower limits (.node group (.subselect p) (primary :: subs)) st =
      (.ok t, st')) :
    ∃ first others, t = .subselect p (subs.map PlanTree.group) (first :: others) ∧
      ∀ s, (TupleStream.bindSubqueries p ((subs.map PlanTree.group).zip others) s).result = .ok () →
        List.Forall₂ (fun (sub : PhysicalPlan) (us : List Tuple) =>
          (∀ v ∈ us, v.Laid sub.columns) ∧
          ∀ u w, first.ComesTo (· ∈ subs.map PlanTree.group)
              (TupleStream.bindSubqueries p ((subs.map PlanTree.group).zip others) s).state u w →
            ∀ c, sub.ReadsFirst p us w.bindings u c)
          subs (TupleStream.subqueryTuples p ((subs.map PlanTree.group).zip others) s) := by
  obtain ⟨first, others, rfl, hfirst, hothers⟩ := lower_subselect hvalid hfits hlower
  refine ⟨first, others, rfl, ?_⟩
  intro s hok
  have hbound := bindSubqueries_bound p hothers (fun sub hsub => List.mem_map_of_mem hsub) hdistinct
    (fun sub hsub => hapart sub (List.mem_cons_of_mem _ hsub)) hok
  rw [List.forall₂_iff_zip] at hbound ⊢
  refine ⟨hbound.1, ?_⟩
  intro sub us hmem
  have hsub : sub.group ∈ subs.map PlanTree.group :=
    List.mem_map_of_mem (List.of_mem_zip hmem).1
  have hus := hbound.2 hmem
  refine ⟨hus.laid, ?_⟩
  intro u w hw c
  have hkept := hw.rebound hfirst (hapart primary List.mem_cons_self)
  exact (hus.rebound hkept fun hnot => hnot hsub).readsFirst u c

/-! ### Two columns of one sub-query -/

namespace TwoColumns

def x : Column := ⟨"t.x", .long, false⟩

def y : Column := ⟨"t.y", .long, false⟩

def engine : EngineState := ⟨⟨[⟨"t", [x, y], [(0, [.long 1, .long 10])], 1, [], 0⟩]⟩, .empty⟩

def handle : TableHandle := engine.store.handle 0

def scan (group : GroupId) : PhysicalPlan := .node group (.scan handle [x, y] 0 1) []

/-- Both columns are compared with the same columns of the sub-query. -/
def predicate : Predicate :=
  .both (.atom (.oneOf (.column x) [.subquery 5 x]) false)
    (.atom (.oneOf (.column y) [.subquery 5 y]) false)

def pair : PhysicalPlan := .node 0 (.subselect predicate) [scan 0, scan 5]

def start : LoweringState := ⟨⟨engine.store, .empty, .empty, 0⟩, 0⟩

def limits : RunLimits := ⟨0, 0, true⟩

theorem scans_bind_nothing : ∀ u ∈ [scan 0, scan 5], ∀ g ∈ u.boundGroups, g ∉ [5] := by
  intro u hu g hg
  simp only [List.mem_cons, List.not_mem_nil, or_false] at hu
  rcases hu with rfl | rfl <;> cases hg

end TwoColumns

open TwoColumns in
theorem subquery_bindings_read_pair : ∃ t st',
    Lowering.lower limits pair start = (.ok t, st') ∧
    ∃ first others, t = .subselect predicate [5] (first :: others) ∧
      ∀ s, (TupleStream.bindSubqueries predicate ([5].zip others) s).result = .ok () →
        List.Forall₂ (fun (sub : PhysicalPlan) (us : List Tuple) =>
          (∀ v ∈ us, v.Laid sub.columns) ∧
          ∀ u w, first.ComesTo (· ∈ [5])
              (TupleStream.bindSubqueries predicate ([5].zip others) s).state u w →
            ∀ c, sub.ReadsFirst predicate us w.bindings u c)
          [scan 5] (TupleStream.subqueryTuples predicate ([5].zip others) s) := by
  refine ⟨_, _, rfl, ?_⟩
  exact @subquery_bindings_read limits 0 predicate (scan 0) [scan 5] start _ _ (by decide)
    (by decide) (by decide) scans_bind_nothing rfl

open TwoColumns in
/-- The binding to the second column reads the values of the first. -/
theorem subquery_binding_misread : pair.validate = .ok () ∧ y ∈ (scan 5).columns ∧
    .subquery 5 y ∈ predicate.bindings ∧ ∃ first sub st' u w,
      Lowering.lower limits pair start = (.ok (.subselect predicate [5] [first, sub]), st') ∧
      (TupleStream.bindSubqueries predicate [(5, sub)] start.run).result = .ok () ∧
      TupleStream.subqueryTuples predicate [(5, sub)] start.run = [[u]] ∧
      first.ComesTo (· ∈ [5]) (TupleStream.bindSubqueries predicate [(5, sub)] start.run).state u w ∧
      w.bindings.resolveAll (some u) (.subquery 5 y) = .ok [.long 1] ∧
      [u].map (·.valueOf y) = [.long 10] := by
  let rows := TupleStream.ofCursor handle TupleStream.unbounded ⟨[x, y], [0, 1], 0, 1, none⟩
  refine ⟨by decide, by decide, ?_, rows, rows, _, ⟨0, [x, y], [.long 1, .long 10]⟩, _, rfl, rfl, rfl,
    .now rfl, rfl, by decide⟩
  simp [predicate, Predicate.bindings, Predicate.atoms, Comparison.bindings]

end PhysicalPlan

end QueryEngine
