import QueryEngine.Execution.Sink
import QueryEngine.Execution.Source
import QueryEngine.Proofs.Agreement
import QueryEngine.Proofs.Bundle
import QueryEngine.Proofs.Storage

/-!
# Operators keep simulations

An operator looks at the state of a run through few views: the late-bound values that its
expressions name, the rows that it reads and the counters. Where related states agree on these views,
every operator that only reads keeps simulations.
-/

set_option autoImplicit false

namespace QueryEngine

/-- Related states agree on what reading operators see if their expressions name sub-queries of some
groups only, and reading keeps them related. -/
structure Bond.FaithfulTo (B : Bond) (sees : Groups) : Prop where
  bindings : ∀ {s s'}, B.state s s' → s.bindings.AgreeOn sees s'.bindings
  recount : ∀ {s s' s₁ s₁'}, B.state s s' → s.Recounted s₁ → s'.Recounted s₁' → B.state s₁ s₁'
  openSubquery : ∀ {s s'} (g : GroupId), B.state s s' →
    B.state { s with bindings := s.bindings.openSubquery g }
      { s' with bindings := s'.bindings.openSubquery g }
  append : ∀ {s s'} (g : GroupId) (v : Value), B.state s s' →
    B.state { s with bindings := s.bindings.append g v }
      { s' with bindings := s'.bindings.append g v }
  countRows : ∀ {s s'} (h : TableHandle), B.state s s' → h.countRows s.store = h.countRows s'.store
  index : ∀ {s s'} (x : IndexHandle), B.state s s' → s.store.index x = s'.store.index x
  scan : ∀ {s s'} (h : TableHandle) (cs : List Column) (i n : Nat), B.state s s' →
    (s.table h).scan cs i n = (s'.table h).scan cs i n
  read : ∀ {s s'} (h : TableHandle) (id : RowId) (cs : List Column), B.state s s' →
    (∃ e, (s.table h).read id cs = .error e ∧ (s'.table h).read id cs = .error e) ∨
      ∃ found table table', (s.table h).read id cs = .ok (found, table) ∧
        (s'.table h).read id cs = .ok (found, table') ∧
        B.state (s.setTable h table) (s'.setTable h table')
  next : ∀ {s s'} (h : TableHandle) (c : Cursor), B.state s s' →
    (c.next? (s.table h) = none ∧ c.next? (s'.table h) = none) ∨
      ∃ u d table table', c.next? (s.table h) = some (u, d, table) ∧
        c.next? (s'.table h) = some (u, d, table') ∧
        B.state (s.setTable h table) (s'.setTable h table')

/-- The same whatever expressions name. -/
abbrev Bond.Faithful (B : Bond) : Prop := B.FaithfulTo fun _ => True

variable {B : Bond} {sees : Groups} {P Q : Tuple → Prop}

theorem Bond.FaithfulTo.count (hB : B.FaithfulTo sees) {s s' : RunState} (item : ProfileItem)
    (hs : B.state s s') : B.state (s.count item) (s'.count item) :=
  hB.recount hs (.count s item) (.count s' item)

theorem Bond.FaithfulTo.counted (hB : B.FaithfulTo sees) : B.Counted :=
  ⟨hB.count .pull, fun _ s _ hs => hB.recount hs (.count s .pull) (.refl _)⟩

/-- Related states have the same tables and as many rows affected, and they stay related when both are
changed alike. -/
structure Bond.Exact (B : Bond) : Prop where
  store : ∀ {s s'}, B.state s s' → s.store = s'.store
  affected : ∀ {s s'}, B.state s s' → s.affected = s'.affected
  change : ∀ {s s'} (x : Store) (n : Nat), B.state s s' →
    B.state { s with store := x, affected := n } { s' with store := x, affected := n }

namespace Bond.Exact

variable {s s' : RunState}

theorem table_eq (hB : B.Exact) (h : TableHandle) (hs : B.state s s') : s.table h = s'.table h :=
  congrArg h.table (hB.store hs)

theorem setTable (hB : B.Exact) (h : TableHandle) (t : Table) (hs : B.state s s') :
    B.state (s.setTable h t) (s'.setTable h t) := by
  have hchanged := hB.change (s.store.setTable h.number t) s.affected hs
  rw [hB.affected hs, hB.store hs] at hchanged
  simpa only [RunState.setTable, hB.affected hs, hB.store hs] using hchanged

theorem affect (hB : B.Exact) (hs : B.state s s') : B.state s.affect s'.affect := by
  have hchanged := hB.change s.store (s.affected + 1) hs
  simpa only [RunState.affect, hB.affected hs, hB.store hs] using hchanged

/-- What is read of the same tables is the same. -/
theorem faithfulTo (hB : B.Exact)
    (hbindings : ∀ {s s'}, B.state s s' → s.bindings.AgreeOn sees s'.bindings)
    (hrecount : ∀ {s s' s₁ s₁'}, B.state s s' → s.Recounted s₁ → s'.Recounted s₁' →
      B.state s₁ s₁')
    (hopen : ∀ {s s'} (g : GroupId), B.state s s' →
      B.state { s with bindings := s.bindings.openSubquery g }
        { s' with bindings := s'.bindings.openSubquery g })
    (happend : ∀ {s s'} (g : GroupId) (v : Value), B.state s s' →
      B.state { s with bindings := s.bindings.append g v }
        { s' with bindings := s'.bindings.append g v }) : B.FaithfulTo sees where
  bindings := hbindings
  recount := hrecount
  openSubquery := hopen
  append := happend
  countRows h hs := by rw [hB.store hs]
  index x hs := by rw [hB.store hs]
  scan h cs i n hs := by rw [hB.table_eq h hs]
  read {s s'} h id cs hs := by
    rw [hB.table_eq h hs]
    cases (s'.table h).read id cs with
    | error e => exact .inl ⟨e, rfl, rfl⟩
    | ok found => exact .inr ⟨found.1, found.2, found.2, rfl, rfl, hB.setTable h found.2 hs⟩
  next {s s'} h c hs := by
    rw [hB.table_eq h hs]
    cases c.next? (s'.table h) with
    | none => exact .inl ⟨rfl, rfl⟩
    | some found =>
      exact .inr ⟨found.1, found.2.1, found.2.2, found.2.2, rfl, rfl, hB.setTable h found.2.2 hs⟩

end Bond.Exact

theorem TupleStream.resolveValues_eq (hB : B.FaithfulTo sees) {s s' : RunState} (hs : B.state s s')
    {values : Assignments} (u : Option Tuple)
    (hsees : ∀ g ∈ (values.map (·.2)).flatMap Binding.groups, sees g) :
    resolveValues values u s = resolveValues values u s' :=
  (hB.bindings hs).resolveEach_eq u (Binding.groupsOfAll_eq _ ▸ hsees)

/-- A verdict from a result that does not depend on the state. -/
theorem Bond.Judge.ofResult {α σ : Type} {r : Except Failure α} {judge : α → Verdict σ}
    {s s' : RunState} (hs : B.state s s')
    (h : ∀ a, r = .ok a → B.Judge Q (judge a, s) (judge a, s')) :
    B.Judge Q (.ofResult r judge, s) (.ofResult r judge, s') := by
  cases r with
  | error f => exact .fail hs
  | ok a => exact h a rfl

/-- Whether these are the columns among the wanted ones that a tuple lacks. -/
def TupleStream.Lacks (wanted : List Column) (u : Tuple) (missing : List Column) : Prop :=
  (wanted.filterM fun c => return (← u.get? c).isNone : Except Crash (List Column)) = .ok missing

/-- What an aggregate can come to over tuples with the property `P`. -/
def Projection.Yields (P : Tuple → Prop) : Projection → Value → Prop
  | select _, _ => False
  | count, v => ∃ n, v = .long n
  | nonempty, v => ∃ b, v = .bool b
  | min c, v => v = .null ∨ ∃ u, P u ∧ u.get? c = .ok (some v)
  | max c, v => v = .null ∨ ∃ u, P u ∧ u.get? c = .ok (some v)
  | sum _, v => v = .null ∨ ∃ x, v = .double x
  | mean _, v => v = .null ∨ ∃ x, v = .double x

namespace TupleStream.Sim

/-! ## Sources -/

theorem ofCursor (hB : B.FaithfulTo sees) (h : TableHandle) (pulls : Nat) {c : Cursor}
    (hP : ∀ s s', B.state s s' → ∀ row ∈ (s.table h).rows,
      P ⟨row.1, c.columns, Table.valuesAt row.2 c.places⟩) :
    (TupleStream.ofCursor h pulls c).Sim B P (TupleStream.ofCursor h pulls c) := by
  induction pulls generalizing c with
  | zero => exact ended
  | succ pulls ih =>
    refine sim_iff.2 fun s s' hs => ?_
    simp only [TupleStream.ofCursor, pull_of]
    rcases hB.next h c hs with ⟨hn, hn'⟩ | ⟨u, d, table, table', hn, hn', hs₁⟩
    · rw [hn, hn']
      exact .finished hs
    · rw [hn, hn']
      obtain ⟨row, hrow, he⟩ := Option.map_eq_some_iff.1 hn
      cases he
      exact .row (hP s s' hs row (List.mem_of_find?_eq_some hrow)) hs₁ (ih hP)

/-- A storage that fails after some answers fails on both sides. -/
theorem failingAfter (hB : B.FaithfulTo sees) (h : TableHandle) (reason : String) (pulls : Nat)
    {c : Cursor} (hP : ∀ s s', B.state s s' → ∀ row ∈ (s.table h).rows,
      P ⟨row.1, c.columns, Table.valuesAt row.2 c.places⟩) (results : Nat) :
    ((TupleStream.ofCursor h pulls c).failingAfter results reason).Sim B P
      ((TupleStream.ofCursor h pulls c).failingAfter results reason) := by
  induction pulls generalizing c results with
  | zero => exact ended
  | succ pulls ih =>
    refine sim_iff.2 fun s s' hs => ?_
    simp only [TupleStream.failingAfter, TupleStream.ofCursor, TupleStream.transduce, pull_of]
    by_cases hz : results = 0
    · simp only [hz, if_true]
      exact .failed hs
    · simp only [hz, if_false]
      rcases hB.next h c hs with ⟨hn, hn'⟩ | ⟨u, d, table, table', hn, hn', hs₁⟩
      · rw [hn, hn']
        exact .finished hs
      · rw [hn, hn']
        obtain ⟨row, hrow, he⟩ := Option.map_eq_some_iff.1 hn
        cases he
        exact .row (hP s s' hs row (List.mem_of_find?_eq_some hrow)) hs₁
          (ih (c := { c with after := some row.1 }) hP (results - 1))

theorem rowCount (hB : B.FaithfulTo sees) (h : TableHandle) {cs : List Column}
    (hP : ∀ n : Int64, P ⟨syntheticRow, cs, [.long n]⟩) :
    (TupleStream.rowCount h cs).Sim B P (TupleStream.rowCount h cs) := by
  refine deferred fun s s' hs => ?_
  rw [hB.countRows h hs]
  cases h.countRows s'.store with
  | error e => exact .failed (.same _) hs
  | ok n => exact .ok (ofList (List.forall_mem_singleton.2 (hP _))) hs

/-! ## Tuple by tuple -/

variable {t t' : TupleStream}

theorem sample (p : Binary32) (seed : UInt64) (h : t.Sim B P t') :
    (t.sample p seed).Sim B P (t'.sample p seed) := by
  refine steady h (fun random u s s' hu hs => ?_) _
  by_cases hd : (random.nextUnit.1.lt p) = true
  · simp only [hd, if_true]
    exact .emit hu hs
  · simp only [hd]
    exact .drop hs

theorem filter (hB : B.FaithfulTo sees) (p : Predicate)
    (hp : ∀ g ∈ p.bindings.flatMap Binding.groups, sees g) (h : t.Sim B P t') :
    (t.filter p).Sim B P (t'.filter p) := by
  refine steady h (fun _ u s s' hu hs => ?_) _
  rw [(hB.bindings hs).holds_eq u (List.forall_mem_flatMap.1 hp)]
  cases p.holds s'.bindings u with
  | error f => exact .fail hs
  | ok keep =>
    cases keep with
    | false => exact .drop (hB.count _ hs)
    | true => exact .emit hu (hB.count _ hs)

theorem changeEach {change : Tuple → Except Crash Tuple}
    (hQ : ∀ u v, P u → change u = .ok v → Q v) (h : t.Sim B P t') :
    (t.changeEach change).Sim B Q (t'.changeEach change) := by
  refine steady h (fun _ u s s' hu hs => ?_) _
  exact .ofResult hs fun v hv => .emit (hQ u v hu (Crash.lifted_eq_ok.1 hv)) hs

theorem apply (hB : B.FaithfulTo sees) (f : Function) (arguments : List Binding)
    (hsees : ∀ g ∈ arguments.flatMap Binding.groups, sees g) {cs : List Column}
    (hQ : ∀ s s', B.state s s' → ∀ u v, P u →
      (s'.bindings.resolveEach (some u) arguments).bind f.invoke = .ok v → Q (u.extend cs v))
    (h : t.Sim B P t') : (t.apply f arguments cs).Sim B Q (t'.apply f arguments cs) := by
  refine steady h (fun _ u s s' hu hs => ?_) _
  rw [(hB.bindings hs).resolveEach_eq (some u) (Binding.groupsOfAll_eq arguments ▸ hsees)]
  exact .ofResult hs fun v hv => .emit (hQ s s' hs u v hu hv) hs

theorem fetch (hB : B.FaithfulTo sees) (h : TableHandle) (wanted : List Column) {cs : List Column}
    (hproject : ∀ u v, P u → Lacks wanted u [] → u.project cs = .ok v → Q v)
    (hcomplete : ∀ s s', B.state s s' → ∀ u v missing found table, P u → Lacks wanted u missing →
      (s.table h).read u.row missing = .ok (some found, table) → complete cs u found = .ok v → Q v)
    (ht : t.Sim B P t') : (t.fetch h wanted cs).Sim B Q (t'.fetch h wanted cs) := by
  refine steady ht (fun _ u s s' hu hs => ?_) _
  cases hw : (wanted.filterM fun c => return (← u.get? c).isNone : Except Crash (List Column)) with
  | error c => exact .fail hs
  | ok missing =>
    cases missing with
    | nil =>
      exact .ofResult hs fun v hv => .emit (hproject u v hu hw (Crash.lifted_eq_ok.1 hv)) hs
    | cons c rest =>
      rcases hB.read h u.row (c :: rest) hs with ⟨e, hr, hr'⟩ | ⟨found, table, table', hr, hr', hs₁⟩
      · simp only [hr, hr']
        exact .fail hs
      · simp only [hr, hr']
        cases found with
        | none => exact .drop hs₁
        | some w =>
          exact .ofResult hs₁ fun v hv =>
            .emit (hcomplete s s' hs u v _ w table hu hw hr (Crash.lifted_eq_ok.1 hv)) hs₁

theorem limit (bounds : RowLimit) (h : t.Sim B P t') :
    (t.limit bounds).Sim B P (t'.limit bounds) := by
  refine transduce (fun left => left != (0, 0)) (fun _ => rfl) (fun left u s s' hu hs => ?_)
    t h _
  obtain ⟨skip, room⟩ := left
  by_cases hskip : 0 < skip
  · simp only [hskip, if_true]
    exact .drop hs
  · simp only [hskip, if_false]
    exact .emit hu hs

/-! ## Aggregates -/

theorem reduceHolds {α : Type} {holds : α → Prop} {step : α → Tuple → Except Failure α}
    (hstep : ∀ a u b, holds a → P u → step a u = .ok b → holds b) (h : t.Sim B P t') {a : α}
    (ha : holds a) {s s' : RunState} (hs : B.state s s') :
    B.Agree (fun x y => x = y ∧ holds x) (t.reduce step a s) (t'.reduce step a s') := by
  refine consume (fun x y u s s' hxy hu hs => ?_) t h ⟨rfl, ha⟩ hs
  obtain ⟨rfl, hx⟩ := hxy
  cases hr : step x u with
  | error f => exact .failed (.same f) hs
  | ok y => exact .ok ⟨rfl, hstep x u y hx hu hr⟩ hs

theorem reduce {α : Type} (step : α → Tuple → Except Failure α) (h : t.Sim B P t') (a : α)
    {s s' : RunState} (hs : B.state s s') :
    B.Agree (fun x y => x = y ∧ True) (t.reduce step a s) (t'.reduce step a s') :=
  reduceHolds (fun _ _ _ _ _ _ => trivial) h trivial hs

/-- The best value of a column is one of its values. -/
theorem best (wanted : Ordering) (c : Column) (h : t.Sim B P t') {s s' : RunState}
    (hs : B.state s s') :
    B.Agree (fun x y => x = y ∧ (x = .null ∨ ∃ u, P u ∧ u.get? c = .ok (some x)))
      (t.best wanted c s) (t'.best wanted c s') := by
  refine reduceHolds (fun best u v hbest hu hv => ?_) h (.inl rfl) hs
  obtain ⟨found, hfound, rfl⟩ := Except.map_eq_ok.1 hv
  obtain ⟨value, hvalue, rfl⟩ := Except.map_eq_ok.1 (Crash.lifted_eq_ok.1 hfound)
  cases value with
  | none => exact hbest
  | some x =>
    cases hnull : x.isNull with
    | true => simpa [Option.filter, hnull] using hbest
    | false =>
      simp only [Option.filter, hnull, Bool.not_false, if_true, Option.map_some, Option.getD_some,
        better]
      split
      · exact .inr ⟨u, hu, hvalue⟩
      · exact hbest

theorem hasTuple (h : t.Sim B P t') {s s' : RunState} (hs : B.state s s') :
    B.Agree (fun x y => x = y) (t.hasTuple s) (t'.hasTuple s') := by
  have ha := h.answer hs
  simp only [TupleStream.hasTuple]
  generalize t.pull s = r at ha
  generalize t'.pull s' = r' at ha
  cases ha with
  | row _ hs₁ _ => exact .ok rfl hs₁
  | finished hs₁ => exact .ok rfl hs₁
  | failed hs₁ => exact .failed (.same _) hs₁
  | crashed hs₁ => exact .failed (.same _) hs₁
  | lost hw hs₁ => exact .failed (.lost _ _ hw) hs₁
  | excused he => exact .excused he

theorem aggregate (p : Projection) (h : t.Sim B P t') {s s' : RunState} (hs : B.state s s') :
    B.Agree (fun x y => x = y ∧ p.Yields P x) (t.aggregate p s) (t'.aggregate p s') := by
  have hnumber {c : Column} (f : Binary64 × Nat → Binary64) :
      B.Agree (fun x y => x = y ∧ (x = Value.null ∨ ∃ z, x = .double z))
        (Outcome.map (fun a => if a.2 = 0 then Value.null else .double (f a)) (t.total c s))
        (Outcome.map (fun a => if a.2 = 0 then Value.null else .double (f a)) (t'.total c s')) := by
    refine (reduce (addNumber c) h (.zero, 0) hs).map ?_
    rintro a _ ⟨rfl, -⟩
    refine ⟨rfl, ?_⟩
    split
    · exact .inl rfl
    · exact .inr ⟨_, rfl⟩
  cases p with
  | select cs => exact .failed (.same _) hs
  | count =>
    refine (reduce _ h 0 hs).map ?_
    rintro n _ ⟨rfl, -⟩
    exact ⟨rfl, _, rfl⟩
  | nonempty =>
    refine (hasTuple h hs).map ?_
    rintro found _ rfl
    exact ⟨rfl, found, rfl⟩
  | min c => exact best .lt c h hs
  | max c => exact best .gt c h hs
  | sum c => exact hnumber fun a => a.1
  | mean c => exact hnumber fun a => a.1 / .ofNat a.2

theorem project (p : Projection) {cs : List Column}
    (hvalue : p.isAggregate = true → ∀ v, p.Yields P v → Q ⟨syntheticRow, cs, [v]⟩)
    (hproject : p.isAggregate = false → ∀ u v, P u → u.project cs = .ok v → Q v)
    (h : t.Sim B P t') : (t.project p cs).Sim B Q (t'.project p cs) := by
  unfold TupleStream.project
  split
  · rename_i hp
    refine deferred fun s s' hs => (aggregate p h hs).map ?_
    rintro v _ ⟨rfl, hv⟩
    exact ofList (List.forall_mem_singleton.2 (hvalue hp v hv))
  · rename_i hp
    exact changeEach (hproject (eq_false_of_ne_true hp)) h

/-! ## Sorts -/

/-- The tuples of a stream. -/
theorem collect (h : t.Sim B P t') {s s' : RunState} (hs : B.state s s') :
    B.Agree (fun x y => x = y ∧ ∀ u ∈ x, P u) (t.collect s) (t'.collect s') := by
  refine consume (fun x y u s s' hxy hu hs => ?_) t h ⟨rfl, by simp⟩ hs
  obtain ⟨rfl, hx⟩ := hxy
  refine .ok ⟨rfl, fun v hv => ?_⟩ hs
  rcases List.mem_append.1 hv with hv | hv
  · exact hx v hv
  · exact List.mem_singleton.1 hv ▸ hu

theorem sorted_agree (hB : B.FaithfulTo sees) (order : SortOrder) {ts : List Tuple} (hP : ∀ u ∈ ts, P u)
    {s s' : RunState} (hs : B.state s s') :
    B.Agree (fun x y => x = y ∧ ∀ u ∈ x, P u) (sorted order ts s) (sorted order ts s') := by
  unfold sorted
  cases hsort : order.sortTuples ts with
  | error c => exact .failed (.same _) hs
  | ok us =>
    refine .ok ⟨rfl, fun u hu => ?_⟩ (hB.count _ hs)
    have he : ts.mergeSort order.le = us := by
      revert hsort
      simp only [SortOrder.sortTuples]
      cases order.checkNeighbours (ts.mergeSort order.le) <;> simp [Except.map]
    exact hP u (List.mem_mergeSort.1 (he ▸ hu))

theorem sort (hB : B.FaithfulTo sees) (order : SortOrder) (h : t.Sim B P t') :
    (t.sort order).Sim B P (t'.sort order) := by
  refine deferred fun s s' hs => ?_
  have ha := collect h hs
  generalize t.collect s = o at ha
  generalize t'.collect s' = o' at ha
  cases ha with
  | ok hts hs₁ =>
    obtain ⟨rfl, hP⟩ := hts
    refine (sorted_agree hB order hP hs₁).map ?_
    rintro us _ ⟨rfl, hus⟩
    exact ofList hus
  | failed hf hs₁ => exact .failed hf hs₁
  | excused he => exact .excused he

end TupleStream.Sim

theorem SortOrder.insert_perm {order : SortOrder} {u : Tuple} {ts found : List Tuple}
    (h : order.insert u ts = .ok found) : found.Perm (u :: ts) := by
  induction ts generalizing found with
  | nil =>
    cases h
    exact .refl _
  | cons v rest ih =>
    unfold SortOrder.insert at h
    cases hc : order.compareTuples u v with
    | error c => simp [hc, bind, Except.bind] at h
    | ok o =>
      simp only [hc, bind, Except.bind, pure, Except.pure] at h
      split at h
      · cases h
        exact .refl _
      · cases hr : order.insert u rest with
        | error c => simp [hr] at h
        | ok later =>
          simp only [hr, Except.ok.injEq] at h
          subst h
          exact ((ih hr).cons v).trans (.swap _ _ _)

/-- Only given tuples are kept. -/
theorem TupleStream.mem_keepLeast {order : SortOrder} {capacity : Nat} {kept found : List Tuple}
    {u v : Tuple} (h : keepLeast order capacity kept u = .ok found) (hv : v ∈ found) :
    v = u ∨ v ∈ kept := by
  have hinsert {ts us : List Tuple} (hi : order.insert u ts = .ok us) (hv : v ∈ us) :
      v = u ∨ v ∈ ts :=
    List.mem_cons.1 ((SortOrder.insert_perm hi).mem_iff.1 hv)
  unfold keepLeast at h
  split at h
  · exact hinsert h hv
  · cases hl : kept.getLast? with
    | none =>
      simp only [hl, pure, Except.pure, Except.ok.injEq] at h
      exact .inr (h ▸ hv)
    | some worst =>
      simp only [hl] at h
      cases hc : order.compareTuples u worst with
      | error c => simp [hc, bind, Except.bind] at h
      | ok o =>
        simp only [hc, bind, Except.bind, pure, Except.pure] at h
        split at h
        · exact (hinsert h hv).imp_right fun hm => List.dropLast_subset _ hm
        · cases h
          exact .inr hv

namespace TupleStream.Sim

variable {t t' : TupleStream}

theorem limitingSort (hcount : ∀ {s s'}, B.state s s' → B.state (s.count .sort) (s'.count .sort))
    (order : SortOrder) (bounds : RowLimit) (h : t.Sim B P t') :
    (t.limitingSort order bounds).Sim B P (t'.limitingSort order bounds) := by
  refine deferred fun s s' hs => ?_
  by_cases hreach : bounds.reach = 0
  · simp only [hreach, if_true]
    exact .ok ended hs
  · simp only [hreach, if_false]
    have ha : B.Agree (fun x y => x = y ∧ ∀ u ∈ x, P u)
        (t.reduce (fun kept u => Crash.lifted (keepLeast order bounds.reach.toNat kept u)) [] s)
        (t'.reduce (fun kept u => Crash.lifted (keepLeast order bounds.reach.toNat kept u)) [] s')
        := by
      refine consume (fun x y u s s' hxy hu hs => ?_) t h ⟨rfl, by simp⟩ hs
      obtain ⟨rfl, hx⟩ := hxy
      simp only
      cases hk : keepLeast order bounds.reach.toNat x u with
      | error c => exact .failed (.same _) hs
      | ok found =>
        refine .ok ⟨rfl, fun v hv => ?_⟩ hs
        rcases mem_keepLeast hk hv with rfl | hv
        · exact hu
        · exact hx v hv
    generalize t.reduce _ _ _ = o at ha
    generalize t'.reduce _ _ _ = o' at ha
    cases ha with
    | ok hkept hs₁ =>
      obtain ⟨rfl, hP⟩ := hkept
      exact .ok (ofList fun u hu => hP u (List.mem_of_mem_drop hu)) (hcount hs₁)
    | failed hf hs₁ => exact .failed hf hs₁
    | excused he => exact .excused he

/-! ### Spilling sorts -/

/-- Tuples that wait and those of all runs have a property. -/
def Holding (P : Tuple → Prop) (a : SpillState (List Tuple)) : Prop :=
  (∀ u ∈ a.waiting, P u) ∧ ∀ run ∈ a.runs, ∀ u ∈ run, P u

theorem Holding.add {a : SpillState (List Tuple)} {u : Tuple} (ha : Holding P a) (hu : P u) :
    Holding P { a with waiting := a.waiting ++ [u] } :=
  ⟨List.forall_mem_append.2 ⟨ha.1, List.forall_mem_singleton.2 hu⟩, ha.2⟩

theorem Holding.write {cs : List Column} (hlayout : ∀ u, P u → P { u with columns := cs })
    {a : SpillState (List Tuple)} {run : List Tuple} (ha : Holding P a) (hrun : ∀ u ∈ run, P u) :
    Holding P ⟨a.runs ++ [relaid cs run], []⟩ := by
  have hnew : ∀ u ∈ relaid cs run, P u :=
    List.forall_mem_map.2 fun u hu => hlayout u (hrun u hu)
  exact ⟨List.forall_mem_nil _, List.forall_mem_append.2 ⟨ha.2, List.forall_mem_singleton.2 hnew⟩⟩

section Spilling

variable {cs : List Column} {canSpill canSpill' : Bool}
variable (hB : B.FaithfulTo sees) (order : SortOrder)
variable (hlayout : ∀ u, P u → P { u with columns := cs })
variable (hspill : canSpill = canSpill' ∨ (canSpill = false ∧ B.excuses .spill))
include hB hlayout hspill

theorem spill {a : SpillState (List Tuple)} (ha : Holding P a) {s s' : RunState} (hs : B.state s s') :
    B.Agree (fun x y => x = y ∧ Holding P x) (a.spill order canSpill (relaid cs) s)
      (a.spill order canSpill' (relaid cs) s') := by
  have hsorted := sorted_agree hB order ha.1 hs
  unfold SpillState.spill
  generalize sorted order a.waiting s = o at hsorted
  generalize sorted order a.waiting s' = o' at hsorted
  cases hsorted with
  | failed hf hs₁ => exact .failed hf hs₁
  | excused he => exact .excused he
  | @ok run _ s₁ s₁' hrun hs₁ =>
    obtain ⟨rfl, hP⟩ := hrun
    have hnew : Holding P ⟨a.runs ++ [relaid cs run], []⟩ := ha.write hlayout hP
    rcases hspill with rfl | ⟨rfl, he⟩
    · cases canSpill with
      | true => exact .ok ⟨rfl, hnew⟩ hs₁
      | false => exact .failed (.same _) hs₁
    · exact .excused he

theorem externalSort (chunk : Nat) (h : t.Sim B P t') :
    (t.externalSort .plain order chunk canSpill cs).Sim B P
      (t'.externalSort .plain order chunk canSpill' cs) := by
  rw [externalSort_relaid, externalSort_relaid]
  have hadd {a : SpillState (List Tuple)} {u : Tuple} (ha : Holding P a) (hu : P u) {s s' : RunState}
      (hs : B.state s s') : B.Agree (fun x y => x = y ∧ Holding P x)
        (a.add order (max chunk 1) canSpill (relaid cs) u s)
        (a.add order (max chunk 1) canSpill' (relaid cs) u s') := by
    simp only [SpillState.add]
    split
    · exact spill hB order hlayout hspill (ha.add hu) hs
    · exact .ok ⟨rfl, ha.add hu⟩ hs
  have hmerge {a : SpillState (List Tuple)} (ha : Holding P a) {s s' : RunState} (hs : B.state s s') :
      B.Agree (Sim B P) (a.merge order TupleStream.ofList s)
        (a.merge order TupleStream.ofList s') := by
    refine startMerge ?_ hs
    exact List.forall₂_map_left_iff.2 (List.forall₂_map_right_iff.2
      (List.forall₂_same.2 fun run hrun => ofList (ha.2 run hrun)))
  refine deferred fun s s' hs => ?_
  have ha : B.Agree (fun x y => x = y ∧ Holding P x)
      (t.consume (SpillState.add order (max chunk 1) canSpill (relaid cs)) ⟨[], []⟩ s)
      (t'.consume (SpillState.add order (max chunk 1) canSpill' (relaid cs)) ⟨[], []⟩ s') :=
    consume (fun x y u s s' hxy hu hs => hxy.1 ▸ hadd hxy.2 hu hs) t h ⟨rfl, by simp [Holding]⟩ hs
  generalize t.consume _ _ _ = o at ha
  generalize t'.consume _ _ _ = o' at ha
  cases ha with
  | failed hf hs₁ => exact .failed hf hs₁
  | excused he => exact .excused he
  | @ok a _ s₁ s₁' hx hs₁ =>
    obtain ⟨rfl, hP⟩ := hx
    simp only [SpillState.finish]
    split
    · refine (sorted_agree hB order hP.1 hs₁).map ?_
      rintro us _ ⟨rfl, hus⟩
      exact ofList hus
    · split
      · exact hmerge hP hs₁
      · have hsp := spill hB order hlayout hspill hP hs₁
        generalize a.spill order canSpill (relaid cs) s₁ = o at hsp
        generalize a.spill order canSpill' (relaid cs) s₁' = o' at hsp
        cases hsp with
        | failed hf hs₂ => exact .failed hf hs₂
        | excused he => exact .excused he
        | ok hx hs₂ =>
          obtain ⟨rfl, hP⟩ := hx
          exact hmerge hP hs₂

end Spilling

/-! ## Several inputs -/

theorem merge {cs : List Column} (hQ : ∀ u v, P u → align cs u = .ok v → Q v)
    {ts ts' : List TupleStream} (h : List.Forall₂ (Sim B P) ts ts') :
    (TupleStream.merge cs ts).Sim B Q (TupleStream.merge cs ts') :=
  changeEach hQ (concat h)

theorem distinct (h : t.Sim B P t') : t.distinct.Sim B P t'.distinct := by
  refine steady h (fun seen u s s' hu hs => ?_) _
  by_cases hseen : u.values ∈ seen
  · simp only [hseen, if_true]
    exact .drop hs
  · simp only [hseen, if_false]
    exact .emit hu hs

theorem union (distinct : Bool) {cs : List Column} (hQ : ∀ u v, P u → align cs u = .ok v → Q v)
    {ts ts' : List TupleStream} (h : List.Forall₂ (Sim B P) ts ts') :
    (TupleStream.union distinct cs ts).Sim B Q (TupleStream.union distinct cs ts') := by
  cases distinct with
  | false => exact merge hQ h
  | true => exact (merge hQ h).distinct

theorem rowsOf (cs : List Column) {ts ts' : List TupleStream} (h : List.Forall₂ (Sim B P) ts ts') :
    ∀ {s s'}, B.state s s' → B.Agree (fun x y => x = y) (TupleStream.rowsOf cs ts s).outcome
      (TupleStream.rowsOf cs ts' s').outcome := by
  induction h with
  | nil => exact fun hs => .ok rfl hs
  | @cons t t' rest rest' ht _ ih =>
    intro s s' hs
    have hread := reduce (fun rows u => (Crash.lifted (align cs u)).map fun u => u.values :: rows)
      ht [] hs
    simp only [TupleStream.reduce, TupleStream.consume] at hread
    simp only [TupleStream.rowsOf]
    generalize t.drain _ _ s = read at hread
    generalize t'.drain _ _ s' = read' at hread
    obtain ⟨result, left, s₁⟩ := read
    obtain ⟨result', left', s₁'⟩ := read'
    cases hread with
    | ok hx hs₁ =>
      obtain ⟨rfl, -⟩ := hx
      exact (ih hs₁).map fun x y hxy => congrArg _ hxy
    | failed hf hs₁ => exact .failed hf hs₁
    | excused he => exact .excused he

theorem within (sets : List (List (List Value))) (h : t.Sim B P t') :
    (t.within sets).Sim B P (t'.within sets) := by
  refine steady h (fun seen u s s' hu hs => ?_) _
  cases hin : sets.all (u.values ∈ ·) && u.values ∉ seen with
  | false => exact .drop hs
  | true => exact .emit hu hs

theorem intersect {cs : List Column} (hQ : ∀ u v, P u → align cs u = .ok v → Q v)
    {ts ts' : List TupleStream} (h : List.Forall₂ (Sim B P) ts ts') :
    (TupleStream.intersect cs ts).Sim B Q (TupleStream.intersect cs ts') := by
  cases h with
  | nil => exact afterOthers_nil _ _ _ _
  | cons ht hrest =>
    refine afterOthers (fun _ _ hs => rowsOf cs hrest hs) fun sets _ hsets => ?_
    subst hsets
    exact (changeEach hQ ht).within sets

theorem bindSubqueries (hB : B.FaithfulTo sees) (p : Predicate) {ts ts' : List TupleStream}
    (h : List.Forall₂ (Sim B P) ts ts') :
    ∀ {groups : List GroupId} {s s'}, B.state s s' → B.Agree (fun _ _ => True)
      (TupleStream.bindSubqueries p (groups.zip ts) s).outcome
      (TupleStream.bindSubqueries p (groups.zip ts') s').outcome := by
  induction h with
  | nil =>
    intro groups s s' hs
    cases groups <;> exact .ok trivial hs
  | @cons t t' rest rest' ht _ ih =>
    intro groups s s' hs
    cases groups with
    | nil => exact .ok trivial hs
    | cons g groups =>
      have hread : B.Agree (fun _ _ => True)
          (t.consume (fun () => bindTuple g (columnRead? p g)) ()
            { s with bindings := s.bindings.openSubquery g })
          (t'.consume (fun () => bindTuple g (columnRead? p g)) ()
            { s' with bindings := s'.bindings.openSubquery g }) := by
        refine consume (fun _ _ u s s' _ _ hs => ?_) t ht trivial (hB.openSubquery g hs)
        simp only [bindTuple]
        cases resultOf (columnRead? p g) u with
        | error c => exact .failed (.same _) hs
        | ok found =>
          cases found with
          | none => exact .ok trivial hs
          | some v => exact .ok trivial (hB.append g v hs)
      simp only [TupleStream.consume] at hread
      simp only [List.zip_cons_cons, TupleStream.bindSubqueries]
      generalize t.drain _ _ _ = read at hread
      generalize t'.drain _ _ _ = read' at hread
      obtain ⟨result, left, s₁⟩ := read
      obtain ⟨result', left', s₁'⟩ := read'
      cases hread with
      | ok _ hs₁ => exact ih hs₁
      | failed hf hs₁ => exact .failed hf hs₁
      | excused he => exact .excused he

theorem subselect (hB : B.FaithfulTo sees) (p : Predicate)
    (hp : ∀ g ∈ p.bindings.flatMap Binding.groups, sees g) (groups : List GroupId)
    {ts ts' : List TupleStream} (h : t.Sim B P t') (hrest : List.Forall₂ (Sim B Q) ts ts') :
    (TupleStream.subselect p groups (t :: ts)).Sim B P
      (TupleStream.subselect p groups (t' :: ts')) :=
  afterOthers (fun _ _ hs => bindSubqueries hB p hrest hs) fun _ _ _ => h.filter hB p hp

/-! ## Writes

What is written depends on the tables and on late-bound values. -/

theorem insert (hB : B.FaithfulTo sees) (hexact : B.Exact) (h : TableHandle) (values : Assignments)
    (hsees : ∀ g ∈ (values.map (·.2)).flatMap Binding.groups, sees g) :
    (TupleStream.insert h values).Sim B P (TupleStream.insert h values) := by
  refine deferred fun s s' hs => ?_
  rw [resolveValues_eq hB hs none hsees, hexact.table_eq h hs]
  cases resolveValues values none s' with
  | error f => exact .failed (.same f) hs
  | ok vs =>
    simp only
    cases (s'.table h).insert (values.map (·.1)) vs with
    | error e => exact .failed (.same _) hs
    | ok found => exact .ok ended (hexact.affect (hexact.setTable h found.2 hs))

/-- Writing once for every tuple keeps simulations if one write does. -/
theorem writeEach {write : Tuple → RunState → Outcome Unit}
    (hwrite : ∀ u s s', B.state s s' →
      (write u s).1 = (write u s').1 ∧ B.state (write u s).2 (write u s').2) (h : t.Sim B P t') :
    (t.writeEach write).Sim B Q (t'.writeEach write) := by
  refine steady h (fun _ u s s' _ hs => ?_) _
  obtain ⟨hresult, hstate⟩ := hwrite u s s' hs
  simp only [hresult]
  exact .ofResult hstate fun _ _ => .drop hstate

theorem updateRow (hB : B.FaithfulTo sees) (hexact : B.Exact) (h : TableHandle) (values : Assignments)
    (hsees : ∀ g ∈ (values.map (·.2)).flatMap Binding.groups, sees g) (u : Tuple) {s s' : RunState}
    (hs : B.state s s') :
    (TupleStream.updateRow h values u s).1 = (TupleStream.updateRow h values u s').1 ∧
      B.state (TupleStream.updateRow h values u s).2 (TupleStream.updateRow h values u s').2 := by
  simp only [TupleStream.updateRow, resolveValues_eq hB hs (some u) hsees, hexact.table_eq h hs]
  cases resolveValues values (some u) s' with
  | error f => exact ⟨rfl, hs⟩
  | ok vs =>
    simp only
    generalize (s'.table h).update u.row (values.map (·.1)) vs = written
    obtain ⟨table, result⟩ := written
    cases result with
    | error e => exact ⟨rfl, hexact.setTable h table hs⟩
    | ok _ => exact ⟨rfl, hexact.affect (hexact.setTable h table hs)⟩

theorem deleteRow (hexact : B.Exact) (h : TableHandle) (u : Tuple) {s s' : RunState}
    (hs : B.state s s') :
    (TupleStream.deleteRow h u s).1 = (TupleStream.deleteRow h u s').1 ∧
      B.state (TupleStream.deleteRow h u s).2 (TupleStream.deleteRow h u s').2 := by
  simp only [TupleStream.deleteRow, hexact.table_eq h hs]
  rcases (s'.table h).delete u.row with ⟨table, _ | _⟩
  · exact ⟨rfl, hexact.setTable h table hs⟩
  · exact ⟨rfl, hexact.affect (hexact.setTable h table hs)⟩

theorem update (hB : B.FaithfulTo sees) (hexact : B.Exact) (h : TableHandle) (values : Assignments)
    (hsees : ∀ g ∈ (values.map (·.2)).flatMap Binding.groups, sees g) (ht : t.Sim B P t') :
    (t.update h values).Sim B Q (t'.update h values) :=
  ht.writeEach fun u _ _ hs => updateRow hB hexact h values hsees u hs

theorem delete (hexact : B.Exact) (h : TableHandle) (ht : t.Sim B P t') :
    (t.delete h).Sim B Q (t'.delete h) :=
  ht.writeEach fun u _ _ hs => deleteRow hexact h u hs

end TupleStream.Sim

end QueryEngine
