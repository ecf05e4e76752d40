import QueryEngine.Proofs.Contracts
import QueryEngine.Proofs.Emission
import QueryEngine.Proofs.KeyOrder
import QueryEngine.Proofs.Refusals

/-!
# Contracts of operators and plans

Every operator keeps a contract that its inputs meet, if the expressions that it evaluates fail only
as the contract allows. A plan meets a contract if each of its nodes fits it.
-/

set_option autoImplicit false

namespace QueryEngine

namespace TupleStream.Meets

variable {C : Contract} {P Q : Tuple → Prop} {s s' : RunState} {t : TupleStream}

/-! ## Sources -/

theorem ofCursor (h : TableHandle) (pulls : Nat) {c : Cursor}
    (hP : ∀ row vs, P ⟨row, c.columns, Table.valuesAt vs c.places⟩) :
    (TupleStream.ofCursor h pulls c).Meets C P := by
  induction pulls generalizing c with
  | zero => exact ended
  | succ pulls ih =>
    apply of_pull
    intro s
    simp only [TupleStream.ofCursor, pull_of]
    cases hn : c.next? (s.table h) with
    | none => exact ⟨C.refl s, ih hP⟩
    | some found =>
      obtain ⟨row, _, rfl⟩ := Option.map_eq_some_iff.1 hn
      exact ⟨hP _ _, C.of_bindings rfl, ih (c := { c with after := some row.1 }) hP⟩

theorem failingAfter (results : Nat) (reason : String) (h : t.Meets C P) :
    (t.failingAfter results reason).Meets C P := by
  refine transduce ⟨fun left e he s => ?_, fun _ _ s _ => C.refl s, fun _ u _ hu => hu⟩ t h _
  simp only at he
  split at he
  · cases he
    exact Contract.permits_storage s _
  · cases he

theorem scan {h : TableHandle} {store : Store} {cs : List Column} {i n : Nat}
    (hP : ∀ row vs, vs.length = cs.length → P ⟨row, cs, vs⟩)
    (ht : TupleStream.scan h store cs i n = .ok t) : t.Meets C P := by
  unfold TupleStream.scan at ht
  cases hc : (h.table store).scan cs i n with
  | error e => simp [hc] at ht
  | ok c =>
    obtain ⟨-, places, hplaces, rfl⟩ := Table.scan_eq_ok hc
    have hrows : (TupleStream.ofCursor h unbounded ⟨cs, places, i, n, none⟩).Meets C P :=
      ofCursor h unbounded fun row vs =>
        hP row _ (by simp [Table.valuesAt, Except.mapM_length hplaces])
    simp only [hc] at ht
    cases hf : h.faults.scanFailure with
    | none =>
      simp only [hf, Except.ok.injEq] at ht
      exact ht ▸ hrows
    | some failure =>
      simp only [hf, Except.ok.injEq] at ht
      exact ht ▸ hrows.failingAfter _ _

theorem rowCount (h : TableHandle) {cs : List Column} (hP : ∀ v, P ⟨syntheticRow, cs, [v]⟩) :
    (TupleStream.rowCount h cs).Meets C P := by
  apply deferred
  intro s
  have hsingle (n : Value) : (TupleStream.ofList [⟨syntheticRow, cs, [n]⟩]).Meets C P :=
    ofList (List.forall_mem_singleton.2 (hP n))
  unfold TableHandle.countRows
  cases h.faults.countFailure with
  | some reason => exact .of_error (Contract.permits_storage s _) (C.refl s)
  | none =>
    cases h.faults.reportedCount with
    | some n => exact .of_ok (hsingle _) (C.refl s)
    | none => exact .of_ok (hsingle _) (C.refl s)

theorem sample (p : Binary32) (seed : UInt64) (h : t.Meets C P) : (t.sample p seed).Meets C P := by
  refine h.steady (fun random u s hu => ⟨C.refl s, ?_⟩) _
  show Verdict.Meets C P (if _ then _ else _) s
  split
  · exact hu
  · trivial

/-! ## Tuple by tuple -/

theorem filter (p : Predicate) (h : t.Meets C P)
    (hp : ∀ s u f, P u → p.holds s.bindings u = .error f → C.Permits s f) :
    (t.filter p).Meets C P := by
  refine h.steady (fun _ u s hu => ?_) _
  cases hholds : p.holds s.bindings u with
  | error f => exact ⟨C.refl s, hp s u f hu hholds⟩
  | ok keep =>
    refine ⟨C.of_bindings rfl, ?_⟩
    cases keep with
    | false => trivial
    | true => exact hu

theorem changeEach {change : Tuple → Except Crash Tuple} (hQ : ∀ u v, P u → change u = .ok v → Q v)
    (h : t.Meets C P) : (t.changeEach change).Meets C Q := by
  refine h.steady (fun _ u s hu => ⟨C.refl s, .ofLifted fun v hv => ?_⟩) _
  exact hQ u v hu hv

theorem apply (f : Function) (arguments : List Binding) {cs : List Column}
    (hQ : ∀ u v, P u → Q (u.extend cs v)) (h : t.Meets C P)
    (hf : ∀ s u e, P u → (s.bindings.resolveEach (some u) arguments).bind f.invoke = .error e →
      C.Permits s e) : (t.apply f arguments cs).Meets C Q := by
  refine h.steady (fun _ u s hu => ⟨C.refl s, .ofResult (fun v _ => ?_) fun e he => ?_⟩) _
  · exact hQ u v hu
  · exact hf s u e hu he

theorem fetch (h : TableHandle) (wanted : List Column) {cs : List Column}
    (hproject : ∀ u v, P u → u.project cs = .ok v → Q v)
    (hcomplete : ∀ u found v, P u → TupleStream.complete cs u found = .ok v → Q v)
    (ht : t.Meets C P) : (t.fetch h wanted cs).Meets C Q := by
  refine ht.steady (fun _ u s hu => ?_) _
  cases (wanted.filterM fun c => return (← u.get? c).isNone : Except Crash (List Column)) with
  | error c => exact ⟨C.refl s, trivial⟩
  | ok missing =>
    cases missing with
    | nil => exact ⟨C.refl s, .ofLifted fun v hv => hproject u v hu hv⟩
    | cons c rest =>
      simp only
      rcases (s.table h).read u.row (c :: rest) with e | ⟨_ | found, table⟩
      · exact ⟨C.refl s, Contract.permits_storage s _⟩
      · exact ⟨C.of_bindings rfl, trivial⟩
      · exact ⟨C.of_bindings rfl, .ofLifted fun v hv => hcomplete u found v hu hv⟩

theorem limit (bounds : RowLimit) (h : t.Meets C P) : (t.limit bounds).Meets C P := by
  refine transduce
    ⟨(fun _ _ he => by cases he), fun _ _ s _ => C.refl s, fun left u s hu => ?_⟩ t h _
  obtain ⟨skip, room⟩ := left
  show Verdict.Meets C P (if _ then _ else _) s
  split
  · trivial
  · exact hu

/-! ## Aggregates -/

theorem hasTuple (h : t.Meets C P) (s : RunState) :
    (t.hasTuple s).Meets C (fun _ => True) s := by
  have hs := h.pull s
  simp only [TupleStream.hasTuple]
  generalize t.pull s = r at hs
  cases r with
  | row u s' rest => exact .of_ok trivial hs.2.1
  | finished s' rest => exact .of_ok trivial hs.1
  | failed e s' => exact .of_error hs.1 hs.2
  | crashed c s' rest => exact .of_error trivial hs.1

theorem permits_addNumber {c : Column} {total : Binary64 × Nat} {u : Tuple} {f : Failure}
    (h : addNumber c total u = .error f) (s : RunState) : C.Permits s f := by
  rcases Except.bind_eq_error.1 h with h | ⟨found, -, h⟩
  · exact Contract.permits_lifted h s
  · split at h
    · cases h
    · split at h
      · cases h
      · cases h
        exact C.others fun _ he => nomatch he

theorem aggregate (p : Projection) (h : t.Meets C P) (s : RunState) :
    (t.aggregate p s).Meets C (fun _ => True) s := by
  have hbest (wanted : Ordering) (c : Column) : (t.best wanted c s).Meets C (fun _ => True) s := by
    refine h.reduce (fun _ _ _ _ _ _ => trivial) (fun best u f s hf => ?_) trivial s
    exact Contract.permits_lifted (Except.map_eq_error.1 hf) s
  have htotal (c : Column) : (t.total c s).Meets C (fun _ => True) s :=
    h.reduce (fun _ _ _ _ _ _ => trivial) (fun _ _ _ s hf => permits_addNumber hf s) trivial s
  cases p with
  | select cs => exact .of_error (Contract.permits_storage s _) (C.refl s)
  | count =>
    have hcount : (t.reduce (fun n _ => .ok (n + 1)) 0 s).Meets C (fun _ : Nat => True) s :=
      h.reduce (fun _ _ _ _ _ _ => trivial) (fun _ _ _ _ hf => by cases hf) trivial s
    exact hcount.map fun _ _ => trivial
  | nonempty => exact (hasTuple h s).map fun _ _ => trivial
  | min c => exact hbest .lt c
  | max c => exact hbest .gt c
  | sum c => exact (htotal c).map fun _ _ => trivial
  | mean c => exact (htotal c).map fun _ _ => trivial

theorem project (p : Projection) {cs : List Column}
    (hvalue : p.isAggregate = true → ∀ v, Q ⟨syntheticRow, cs, [v]⟩)
    (hproject : ∀ u v, P u → u.project cs = .ok v → Q v) (h : t.Meets C P) :
    (t.project p cs).Meets C Q := by
  unfold TupleStream.project
  split
  · rename_i hp
    exact deferred fun s => (aggregate p h s).map fun v _ =>
      ofList (List.forall_mem_singleton.2 (hvalue hp v))
  · exact changeEach hproject h

/-! ## Sorts -/

theorem collect (h : t.Meets C P) (s : RunState) :
    (t.collect s).Meets C (fun us => ∀ u ∈ us, P u) s := by
  refine h.reduce (fun us u vs hus hu he v hv => ?_) (fun _ _ _ _ hf => by cases hf)
    (fun u hu => nomatch hu) s
  cases he
  rcases List.mem_append.1 hv with hv | hv
  · exact hus v hv
  · exact List.mem_singleton.1 hv ▸ hu

theorem sorted (order : SortOrder) {ts : List Tuple} (hP : ∀ u ∈ ts, P u) (s : RunState) :
    (TupleStream.sorted order ts s).Meets C (fun us => ∀ u ∈ us, P u) s := by
  unfold TupleStream.sorted
  cases hsort : order.sortTuples ts with
  | error c => exact .of_error trivial (C.refl s)
  | ok us =>
    refine .of_ok (fun u hu => hP u ?_) (C.of_bindings rfl)
    obtain ⟨_, _, rfl⟩ := Except.map_eq_ok.1 hsort
    exact List.mem_mergeSort.1 hu

theorem sort (order : SortOrder) (h : t.Meets C P) : (t.sort order).Meets C P := by
  apply deferred
  intro s
  have hts := collect h s
  generalize t.collect s = o at hts
  obtain ⟨f | ts, s'⟩ := o
  · exact .of_error (hts.error f rfl) hts.leads
  · exact .before hts.leads ((sorted order (hts.ok ts rfl) s').map fun us hus => ofList hus)

theorem limitingSort (order : SortOrder) (bounds : RowLimit) (h : t.Meets C P) :
    (t.limitingSort order bounds).Meets C P := by
  apply deferred
  intro s
  by_cases hreach : bounds.reach = 0
  · rw [if_pos hreach]
    exact .of_ok ended (C.refl s)
  · rw [if_neg hreach]
    have hkept : (t.reduce (fun kept u =>
        Crash.lifted (keepLeast order bounds.reach.toNat kept u)) [] s).Meets C
          (fun us => ∀ u ∈ us, P u) s := by
      refine h.reduceLifted (fun us u vs hus hu he v hv => ?_) (fun u hu => nomatch hu) s
      rcases mem_keepLeast he hv with rfl | hv
      · exact hu
      · exact hus v hv
    generalize t.reduce _ _ s = o at hkept
    obtain ⟨f | kept, s'⟩ := o
    · exact .of_error (hkept.error f rfl) hkept.leads
    · refine .before hkept.leads (.of_ok (ofList fun u hu => ?_) (C.of_bindings rfl))
      exact hkept.ok kept rfl u (List.mem_of_mem_drop hu)

section Spilling

variable {cs : List Column} (order : SortOrder) (canSpill : Bool)
variable (hlayout : ∀ u, P u → P { u with columns := cs })
include hlayout

theorem spill {a : SpillState (List Tuple)} (ha : Sim.Holding P a) (s : RunState) :
    (a.spill order canSpill (relaid cs) s).Meets C (Sim.Holding P) s := by
  have hrun : (TupleStream.sorted order a.waiting s).Meets C _ s := sorted order ha.1 s
  unfold SpillState.spill
  generalize TupleStream.sorted order a.waiting s = o at hrun
  obtain ⟨f | run, s'⟩ := o
  · exact .of_error (hrun.error f rfl) hrun.leads
  · cases canSpill with
    | false => exact .of_error (C.others fun _ he => nomatch he) hrun.leads
    | true =>
      exact .of_ok (ha.write hlayout (hrun.ok run rfl)) hrun.leads

theorem externalSort (chunk : Nat) (h : t.Meets C P) :
    (t.externalSort .plain order chunk canSpill cs).Meets C P := by
  rw [TupleStream.externalSort_relaid]
  have hadd (a : SpillState (List Tuple)) (u : Tuple) (s : RunState) (ha : Sim.Holding P a) (hu : P u) :
      (a.add order (max chunk 1) canSpill (relaid cs) u s).Meets C (Sim.Holding P) s := by
    simp only [SpillState.add]
    split
    · exact spill order canSpill hlayout (ha.add hu) s
    · exact .of_ok (ha.add hu) (C.refl s)
  have hmerge {a : SpillState (List Tuple)} (ha : Sim.Holding P a) (s : RunState) :
      (a.merge order TupleStream.ofList s).Meets C (TupleStream.Meets C P) s := by
    have hruns : (TupleStream.startMerge order (a.runs.map TupleStream.ofList) s).Meets C
        (fun t _ => t.Meets C P) (All C P) s :=
      startMerge (List.forall_mem_map.2 fun run hrun => ofList (ha.2 run hrun)) s
    exact ⟨hruns.leads, hruns.ok, hruns.error⟩
  apply deferred
  intro s
  have ha := h.consume hadd (a := ⟨[], []⟩) (by simp [Sim.Holding]) s
  generalize t.consume _ _ s = o at ha
  obtain ⟨f | a, s'⟩ := o
  · exact .of_error (ha.error f rfl) ha.leads
  · apply Outcome.Meets.before ha.leads
    have ha := ha.ok a rfl
    simp only [SpillState.finish]
    split
    · exact (sorted order ha.1 s').map fun us hus => ofList hus
    · split
      · exact hmerge ha s'
      · have hlast : (a.spill order canSpill (relaid cs) s').Meets C _ s' :=
          spill order canSpill hlayout ha s'
        generalize a.spill order canSpill (relaid cs) s' = o at hlast
        obtain ⟨f | b, s''⟩ := o
        · exact .of_error (hlast.error f rfl) hlast.leads
        · exact .before hlast.leads (hmerge (hlast.ok b rfl) s'')

end Spilling

/-! ## Several inputs -/

theorem merge {cs : List Column} (hQ : ∀ u v, P u → align cs u = .ok v → Q v)
    {ts : List TupleStream} (h : All C P ts) : (TupleStream.merge cs ts).Meets C Q :=
  changeEach hQ (concat h)

theorem distinct (h : t.Meets C P) : t.distinct.Meets C P := by
  refine h.steady (fun seen u s hu => ⟨C.refl s, ?_⟩) _
  show Verdict.Meets C P (if _ then _ else _) s
  split
  · trivial
  · exact hu

theorem union (distinct : Bool) {cs : List Column} (hQ : ∀ u v, P u → align cs u = .ok v → Q v)
    {ts : List TupleStream} (h : All C P ts) : (TupleStream.union distinct cs ts).Meets C Q := by
  cases distinct with
  | false => exact merge hQ h
  | true => exact (merge hQ h).distinct

theorem rowsOf (cs : List Column) {ts : List TupleStream} : All C P ts →
    ∀ s, (TupleStream.rowsOf cs ts s).Meets C (fun _ _ => True) (All C P) s := by
  induction ts with
  | nil => exact fun h s => .of_ok trivial (C.refl s) fun _ => h
  | cons t rest ih =>
    intro h s
    obtain ⟨ht, hrest⟩ := List.forall_mem_cons.1 h
    have hstep (rows : List (List Value)) (u : Tuple) (s : RunState) : True → P u →
        Outcome.Meets C (fun _ => True)
          ((Crash.lifted (align cs u)).map fun u => u.values :: rows, s) s := by
      intro _ _
      cases ha : Crash.lifted (align cs u) with
      | ok v => exact .of_ok trivial (C.refl s)
      | error e => exact .of_error (Contract.permits_lifted ha s) (C.refl s)
    have hread := drain hstep t ht (a := []) trivial s
    simp only [TupleStream.rowsOf]
    generalize t.drain _ _ s = read at hread
    obtain ⟨f | rows, left, s'⟩ := read
    · exact .of_error (hread.1.error f rfl) hread.1.leads fun hl => .cons (hread.2 hl) hrest
    · have hlater := ((ih hrest s').before hread.1.leads).map (f := (rows :: ·))
        (q := fun _ _ => True) fun _ _ _ => trivial
      exact hlater.after (fun _ _ _ => trivial) fun hl _ hts => .cons (hread.2 hl) hts

theorem within (sets : List (List (List Value))) (h : t.Meets C P) :
    (t.within sets).Meets C P := by
  refine h.steady (fun seen u s hu => ⟨C.refl s, ?_⟩) _
  show Verdict.Meets C P (if _ then _ else _) s
  split
  · exact hu
  · trivial

theorem intersect {cs : List Column} (hQ : ∀ u v, P u → align cs u = .ok v → Q v)
    {ts : List TupleStream} (h : All C P ts) : (TupleStream.intersect cs ts).Meets C Q := by
  have hinputs : First C P (All C P) ts := by
    cases ts with
    | nil => trivial
    | cons t rest => exact List.forall_mem_cons.1 h
  exact afterOthers (fun others hothers => rowsOf cs hothers)
    (fun sets first _ hfirst => within sets (changeEach hQ hfirst)) hinputs

theorem bindTuple {g : GroupId} (hg : C.Binds g) (column : Option Column) (u : Tuple)
    (s : RunState) : (TupleStream.bindTuple g column u s).Meets C (fun _ => True) s := by
  simp only [TupleStream.bindTuple]
  rcases resultOf column u with c | ⟨_ | v⟩
  · exact .of_error trivial (C.refl s)
  · exact .of_ok trivial (C.refl s)
  · exact .of_ok trivial (hg s _)

theorem bindSubqueries (p : Predicate) {ts : List TupleStream} : All C P ts →
    ∀ {groups : List GroupId}, (∀ g ∈ groups, C.Binds g) → ∀ s,
      (TupleStream.bindSubqueries p (groups.zip ts) s).Meets C (fun _ _ => True)
        (All C P) s := by
  induction ts with
  | nil =>
    intro h groups _ s
    rw [List.zip_nil_right]
    exact .of_ok trivial (C.refl s) fun _ => h
  | cons t rest ih =>
    intro h groups hgroups s
    cases groups with
    | nil => exact .of_ok trivial (C.refl s) fun _ t ht => nomatch ht
    | cons g groups =>
      obtain ⟨ht, hrest⟩ := List.forall_mem_cons.1 h
      obtain ⟨hg, hgroups⟩ := List.forall_mem_cons.1 hgroups
      have hopen : C.leads s { s with bindings := s.bindings.openSubquery g } := hg s []
      have hstep (x : Unit) (u : Tuple) (s : RunState) : True → P u →
          Outcome.Meets C (fun _ => True) (TupleStream.bindTuple g (columnRead? p g) u s) s :=
        fun _ _ => bindTuple hg (columnRead? p g) u s
      have hread := drain hstep t ht (a := ()) trivial
        { s with bindings := s.bindings.openSubquery g }
      simp only [List.zip_cons_cons, TupleStream.bindSubqueries]
      generalize t.drain _ _ _ = read at hread
      obtain ⟨hread, hleft⟩ := hread
      have hread := hread.before hopen
      obtain ⟨f | _, left, s'⟩ := read
      · refine .of_error (hread.error f rfl) hread.leads fun hl => .cons (hleft hl) ?_
        intro u hu
        obtain ⟨x, hx, rfl⟩ := List.mem_map.1 hu
        exact hrest x.2 (List.of_mem_zip hx).2
      · have hlater := (ih hrest hgroups s').before hread.leads
        exact hlater.after (fun _ _ _ => trivial) fun hl _ hts => .cons (hleft hl) hts

theorem subselect (p : Predicate) {groups : List GroupId} (hgroups : ∀ g ∈ groups, C.Binds g)
    (hp : ∀ s u f, P u → p.holds s.bindings u = .error f → C.Permits s f)
    {ts : List TupleStream} (h : First C P (All C Q) ts) :
    (TupleStream.subselect p groups ts).Meets C P :=
  afterOthers (fun _ hothers => bindSubqueries p hothers hgroups)
    (fun _ _ _ hfirst => hfirst.filter p hp) h

/-! ## Writes -/

theorem insert (h : TableHandle) (values : Assignments)
    (hvalues : ∀ s f, resolveValues values none s = .error f → C.Permits s f) :
    (TupleStream.insert h values).Meets C P := by
  apply deferred
  intro s
  cases hv : resolveValues values none s with
  | error f => exact .of_error (hvalues s f hv) (C.refl s)
  | ok vs =>
    simp only
    cases (s.table h).insert (values.map (·.1)) vs with
    | error e => exact .of_error (Contract.permits_storage s _) (C.refl s)
    | ok found => exact .of_ok ended (C.of_bindings rfl)

theorem writeEach {write : Tuple → RunState → Outcome Unit}
    (hwrite : ∀ u s, P u → (write u s).Meets C (fun _ => True) s) (h : t.Meets C P) :
    (t.writeEach write).Meets C Q := by
  refine h.steady (fun _ u s hu => ⟨(hwrite u s hu).leads, .ofResult (fun a _ => ?_) ?_⟩) _
  · trivial
  · exact (hwrite u s hu).error

theorem update (h : TableHandle) (values : Assignments) (ht : t.Meets C P)
    (hvalues : ∀ s u f, P u → resolveValues values (some u) s = .error f → C.Permits s f) :
    (t.update h values).Meets C Q := by
  refine ht.writeEach fun u s hu => ?_
  simp only [updateRow]
  cases hv : resolveValues values (some u) s with
  | error f => exact .of_error (hvalues s u f hu hv) (C.refl s)
  | ok vs =>
    simp only
    generalize (s.table h).update u.row (values.map (·.1)) vs = updated
    obtain ⟨table, e | _⟩ := updated
    · exact .of_error (Contract.permits_storage s _) (C.of_bindings rfl)
    · exact .of_ok trivial (C.of_bindings rfl)

theorem delete (h : TableHandle) (ht : t.Meets C P) : (t.delete h).Meets C Q := by
  refine ht.writeEach fun u s _ => ?_
  simp only [deleteRow]
  rcases (s.table h).delete u.row with ⟨table, _ | _⟩
  · exact .of_ok trivial (C.of_bindings rfl)
  · exact .of_ok trivial (C.of_bindings rfl)

end TupleStream.Meets

/-! ## Operators -/

namespace Operator

/-- What the streams of an operator evaluate when they are pulled. The keys of an index scan are
looked up before; adding the result of a function counts as a call. -/
def evaluated (op : Operator) : List Binding :=
  match op with
  | indexScan .. => []
  | function f arguments _ => [.call f arguments]
  | _ => op.bindings

/-- The tuples that an operator evaluates on, if its input gives tuples with the property `P`. There
is none for an insert. -/
def Sees (P : Tuple → Prop) (op : Operator) (u : Option Tuple) : Prop :=
  match op with
  | insert .. => u = none
  | _ => ∃ v, u = some v ∧ P v

theorem Sees.tuple {P : Tuple → Prop} {op : Operator} {u : Option Tuple} (h : op.Sees P u)
    (hop : ∀ t values, op ≠ .insert t values) : ∃ v, u = some v ∧ P v := by
  cases op with
  | insert t values => exact absurd rfl (hop t values)
  | _ => exact h

end Operator

/-- Whether an operator evaluates nothing that fails in a way that is not allowed. -/
def Contract.Covers (C : Contract) (P : Tuple → Prop) (op : Operator) : Prop :=
  ∀ a ∈ op.evaluated, ∀ (s : RunState) u f, op.Sees P u → s.bindings.Refused u a f → C.Permits s f

theorem Contract.Covers.of_allows {C : Contract} (h : ∀ s e, C.allows s e) (P : Tuple → Prop)
    (op : Operator) : C.Covers P op := by
  intro _ _ s _ f _ _
  cases f with
  | error e => exact h s e
  | crashed c => trivial

namespace PhysicalPlan

/-- Whether the index handles of a plan name the columns of their indexes. -/
def IndexesFit (x : Store) (t : PhysicalPlan) : Prop :=
  ∀ u ∈ t.subtrees, ∀ i h p, u.op = .indexScan i h p → (x.index i).column = i.column

instance (x : Store) (t : PhysicalPlan) : Decidable (t.IndexesFit x) :=
  let fits (u : PhysicalPlan) : Bool :=
    match u.op with
    | .indexScan i _ _ => (x.index i).column = i.column
    | _ => true
  decidable_of_iff (∀ u ∈ t.subtrees, fits u = true) <| forall₂_congr fun u _ => by
    dsimp only [fits]
    cases u.op <;> simp

theorem indexesFit_node {x : Store} {group : GroupId} {op : Operator} {inputs : List PhysicalPlan} :
    IndexesFit x (.node group op inputs) ↔
      (∀ i h p, op = .indexScan i h p → (x.index i).column = i.column) ∧
        ∀ t ∈ inputs, t.IndexesFit x :=
  forall_subtrees_node

end PhysicalPlan

namespace Lowering

variable {C : Contract} {L : List Column → Tuple → Prop}

open TupleStream.Meets

/-- What a contract asks of the inputs of an operator. Only the first input of a sub-select has to
fit the columns `input`. -/
def InputsMeet (C : Contract) (L : List Column → Tuple → Prop) (input : List Column)
    (op : Operator) (ts : List TupleStream) : Prop :=
  match op with
  | .subselect _ => First C (L input) (All C fun _ => True) ts
  | _ => All C (L input) ts

theorem stream_meets (hL : Layout L) {limits : RunLimits} {op : Operator} {s : RunState}
    (hindex : ∀ x h p, op = .indexScan x h p →
      ∀ row v, L [x.column] ⟨row, [(s.store.index x).column], [v]⟩)
    {input : List Column} (hcovers : C.Covers (L input) op) {groups : List GroupId}
    (hgroups : ∀ g ∈ op.readGroups groups, C.Binds g)
    {ts : List TupleStream} (h : InputsMeet C L input op ts) {t : TupleStream}
    (ht : stream limits s op (op.columns input) groups ts = .ok t) :
    t.Meets C (L (op.columns input)) := by
  have hproject {cs : List Column} : ∀ u v, L input u → u.project cs = .ok v → L cs v :=
    fun _ _ _ hv => hL.project hv
  have halign {cs : List Column} : ∀ u v, L input u → TupleStream.align cs u = .ok v → L cs v :=
    fun _ _ hu hv => hL.align hu hv
  have hscan {h : TableHandle} {cs : List Column} {i n : Nat} {t : TupleStream}
      (ht : TupleStream.scan h s.store cs i n = .ok t) : t.Meets C (L cs) :=
    .scan (fun _ _ hvs => hL.scan hvs) ht
  have hsingle {f : TupleStream → TupleStream} (hin : All C (L input) ts)
      (hf : ∀ u, u.Meets C (L input) → (f u).Meets C (L (op.columns input)))
      (ht : (single op ts).map f = .ok t) : t.Meets C (L (op.columns input)) := by
    obtain ⟨u, hu, rfl⟩ := Except.map_eq_ok.1 ht
    unfold single at hu
    cases hlast : ts.getLast? with
    | none => simp [hlast] at hu
    | some v =>
      simp only [hlast, Except.ok.injEq] at hu
      exact hf u (hu ▸ hin v (List.mem_of_getLast? hlast))
  cases op with
  | scan table cs i n => exact hscan ht
  | sample table cs p seed =>
    obtain ⟨u, hu, rfl⟩ := Except.map_eq_ok.1 ht
    exact (hscan hu).sample p seed
  | rowCount table out =>
    cases ht
    exact .rowCount table fun _ => hL.scan rfl
  | indexScan x table p =>
    obtain ⟨rows, hrows, rfl⟩ := Except.map_eq_ok.1 ht
    refine .ofList fun u hu => ?_
    obtain ⟨keys, _, rfl⟩ := Except.map_eq_ok.1 hrows
    obtain ⟨key, _, hu⟩ := List.mem_flatMap.1 (List.mem_mergeSort.1 hu)
    obtain ⟨row, _, rfl⟩ := List.mem_map.1 hu
    exact hindex x table p rfl row key
  | filter p =>
    refine hsingle h (fun _ hu => hu.filter p fun s u f hu hp => ?_) ht
    obtain ⟨a, ha, hrefused⟩ := Predicate.refused_of_holds hp
    exact hcovers a ha s (some u) f ⟨u, rfl, hu⟩ hrefused
  | subselect p =>
    cases ht
    refine .subselect p hgroups (fun s u f hu hp => ?_) h
    obtain ⟨a, ha, hrefused⟩ := Predicate.refused_of_holds hp
    exact hcovers a ha s (some u) f ⟨u, rfl, hu⟩ hrefused
  | function f arguments out =>
    refine hsingle h (fun _ hu => hu.apply f arguments (fun _ _ hu => hL.extend out hu) ?_) ht
    intro s u e hu he
    have hcall : s.bindings.resolve (some u) (.call f arguments) = .error e := by
      rw [Bindings.resolve]
      cases hr : s.bindings.resolveEach (some u) arguments with
      | error e' => simpa [hr, Except.bind] using he
      | ok vs => simpa [hr, Except.bind] using he
    exact hcovers _ List.mem_cons_self s (some u) e ⟨u, rfl, hu⟩ (Bindings.refused_of_resolve hcall)
  | fetch t cs =>
    exact hsingle h (fun _ hu => hu.fetch t cs hproject fun _ _ _ _ hv => hL.complete hv) ht
  | projection p =>
    refine hsingle h (fun _ hu => hu.project p (fun hp v => ?_) hproject) ht
    cases p with
    | select cs => cases hp
    | _ => exact hL.scan rfl
  | sort order => exact hsingle h (fun _ hu => hu.sort order) ht
  | externalSort order chunk =>
    exact hsingle h (fun _ hu => .externalSort order _ (fun _ hv => hL.relabel hv) chunk hu) ht
  | limitingSort order bounds => exact hsingle h (fun _ hu => hu.limitingSort order bounds) ht
  | limit bounds => exact hsingle h (fun _ hu => hu.limit bounds) ht
  | merge =>
    cases ht
    exact .merge halign h
  | mergeLimitingSort order bounds =>
    cases ht
    exact (TupleStream.Meets.mergeSorted h).limit bounds
  | union distinct =>
    cases ht
    exact .union distinct halign h
  | intersect =>
    cases ht
    exact .intersect halign h
  | insert table values =>
    cases ht
    refine .insert table values fun s f hf => ?_
    obtain ⟨a, ha, hrefused⟩ := Bindings.refused_of_resolveEach hf
    exact hcovers a ha s none f rfl hrefused
  | update t values =>
    refine hsingle h (fun _ hu => hu.update t values fun s u f hu hf => ?_) ht
    obtain ⟨a, ha, hrefused⟩ := Bindings.refused_of_resolveEach hf
    exact hcovers a ha s (some u) f ⟨u, rfl, hu⟩ hrefused
  | delete t => exact hsingle h (fun _ hu => hu.delete t) ht

/-! ## Plans -/

open PhysicalPlan

/-- Steps of setting up succeed one after another. -/
theorem bind_eq_ok {α β : Type} {x : Lowering α} {f : α → Lowering β} {b : β}
    {st st' : LoweringState} :
    (x >>= f) st = (.ok b, st') ↔ ∃ a st₁, x st = (.ok a, st₁) ∧ f a st₁ = (.ok b, st') := by
  rw [bind_apply]
  constructor
  · intro h
    generalize x st = o at h
    obtain ⟨e | a, st₁⟩ := o
    · cases h
    · exact ⟨a, st₁, rfl, h⟩
  · rintro ⟨a, st₁, hx, h⟩
    rw [hx]
    exact h

/-- What setting up a node consists of. -/
theorem lower_node_eq_ok {limits : RunLimits} {group : GroupId} {op : Operator}
    {inputs : List PhysicalPlan} {st st' : LoweringState} {t : TupleStream}
    (h : lower limits (.node group op inputs) st = (.ok t, st')) :
    ∃ ts st₁, connectAll limits group
        ((inputs.map PlanTree.group).zip (inputs.map (lower limits))) st = (.ok ts, st₁) ∧
      stream limits st₁.run op (op.columns ((inputs.map columns).headD []))
        (inputs.map PlanTree.group) ts = .ok t ∧ st₁.run.Recounted st'.run := by
  rw [lower, PlanTree.fold_node] at h
  obtain ⟨ts, st₁, hts, h⟩ := bind_eq_ok.1 h
  obtain ⟨_, _, hget, h⟩ := bind_eq_ok.1 h
  cases hget
  obtain ⟨u, st₂, hu, h⟩ := bind_eq_ok.1 h
  have hlift (r : Except Failure TupleStream) (st : LoweringState) :
      (liftM r : Lowering TupleStream) st = (r, st) := rfl
  rw [hlift, columns_node] at hu
  obtain ⟨hstream, rfl⟩ := Prod.mk.inj hu
  cases h
  exact ⟨ts, st₁, hts, hstream, _, rfl⟩

/-- A connection gives the stream itself or runs it on a worker. -/
theorem connect_eq_ok {limits : RunLimits} {consumer group : GroupId} {t u : TupleStream}
    {st st' : LoweringState} (h : connect limits consumer group t st = (.ok u, st')) :
    (u = t ∨ u = t.onWorker group) ∧ st'.run = st.run := by
  rw [connect_apply] at h
  split at h
  · split at h
    · cases h
    · cases h
      exact ⟨.inr rfl, rfl⟩
  · cases h
    exact ⟨.inl rfl, rfl⟩

/-- What setting up gives for each of several plans it gives for all of them. -/
theorem connectAll_eq_ok {limits : RunLimits} {consumer : GroupId} {s : RunState}
    {R : PhysicalPlan → TupleStream → Prop}
    (hworker : ∀ t u group, R t u → R t (u.onWorker group)) {inputs : List PhysicalPlan}
    (hlower : ∀ t ∈ inputs, ∀ {st st' u}, s.Recounted st.run →
      lower limits t st = (.ok u, st') → R t u ∧ st.run.Recounted st'.run) {ts : List TupleStream} :
    ∀ {st st' : LoweringState}, s.Recounted st.run →
      connectAll limits consumer ((inputs.map PlanTree.group).zip (inputs.map (lower limits))) st =
        (.ok ts, st') →
      List.Forall₂ R inputs ts ∧ s.Recounted st'.run := by
  induction inputs generalizing ts with
  | nil =>
    intro st st' hs h
    cases h
    exact ⟨.nil, hs⟩
  | cons t rest ih =>
    intro st st' hs h
    obtain ⟨u, st₁, ht, h⟩ := bind_eq_ok.1 h
    obtain ⟨v, st₂, hv, h⟩ := bind_eq_ok.1 h
    obtain ⟨vs, st₃, hvs, h⟩ := bind_eq_ok.1 h
    cases h
    obtain ⟨hu, hs₁⟩ := hlower t List.mem_cons_self hs ht
    obtain ⟨hconnected, hs₂⟩ := connect_eq_ok hv
    have hv : R t v := by
      rcases hconnected with rfl | rfl
      · exact hu
      · exact hworker t u _ hu
    obtain ⟨hvs, hs₃⟩ := ih (fun t ht => hlower t (List.mem_cons_of_mem _ ht))
      (hs₂ ▸ hs.trans hs₁) hvs
    exact ⟨.cons hv hvs, hs₃⟩

/-- What a contract asks of a node of a plan that is set up on the tables `x`. -/
structure Fits (C : Contract) (L : List Column → Tuple → Prop) (x : Store) (op : Operator)
    (inputs : List PhysicalPlan) : Prop where
  agree : (∀ p, op ≠ .subselect p) → ∀ t ∈ inputs, ∀ u, L t.columns u →
    L ((inputs.map columns).headD []) u
  covers : C.Covers (L ((inputs.map columns).headD [])) op
  binds : ∀ g ∈ op.readGroups (inputs.map PlanTree.group), C.Binds g
  index : ∀ i h p, op = .indexScan i h p → ∀ row v, L [i.column] ⟨row, [(x.index i).column], [v]⟩

theorem inputsMeet {x : Store} {op : Operator} {inputs : List PhysicalPlan} {ts : List TupleStream}
    (hfits : Fits C L x op inputs)
    (h : List.Forall₂ (fun (t : PhysicalPlan) u => u.Meets C (L t.columns)) inputs ts) :
    InputsMeet C L ((inputs.map columns).headD []) op ts := by
  by_cases hop : ∃ p, op = .subselect p
  · obtain ⟨p, rfl⟩ := hop
    cases h with
    | nil => trivial
    | cons ht hrest =>
      refine ⟨ht, fun v hv => ?_⟩
      obtain ⟨t, -, hv⟩ := exists_mem_of_forall₂ hrest hv
      exact .mono (fun _ _ => trivial) v hv
  · have hne : ∀ p, op ≠ .subselect p := fun p he => hop ⟨p, he⟩
    have hall : All C (L ((inputs.map columns).headD [])) ts := by
      intro u hu
      obtain ⟨t, hmem, hu⟩ := exists_mem_of_forall₂ h hu
      exact .mono (hfits.agree hne t hmem) u hu
    cases op with
    | subselect p => exact absurd rfl (hne p)
    | _ => exact hall

/-- The nodes of a valid plan agree on where the columns are. -/
theorem fits_of_valid {t : PhysicalPlan} (hvalid : t.validate = .ok ()) {x : Store}
    (hindexes : t.IndexesFit x) {group : GroupId} {op : Operator} {inputs : List PhysicalPlan}
    (hnode : .node group op inputs ∈ t.subtrees)
    (hcovers : C.Covers (Tuple.Laid ((inputs.map columns).headD [])) op)
    (hbinds : ∀ g ∈ op.readGroups (inputs.map PlanTree.group), C.Binds g) :
    Fits C Tuple.Laid x op inputs := by
  have hcheck := (validate_node.1 (validate_subtrees hvalid _ hnode)).1
  refine ⟨fun hop t ht u hu => ?_, hcovers, hbinds, fun i h p hop row v => ?_⟩
  · exact columns_of_check hcheck hop ht ▸ hu
  · exact ⟨congrArg (fun c => [c]) (hindexes _ hnode i h p hop), rfl⟩

/-- A plan of nodes that fit a contract is set up as streams that meet it. -/
theorem lower_meets (hL : Layout L) {limits : RunLimits} {s : RunState} (t : PhysicalPlan) :
    (∀ g op inputs, .node g op inputs ∈ t.subtrees → Fits C L s.store op inputs) →
    ∀ {st st' u}, s.Recounted st.run → lower limits t st = (.ok u, st') →
      u.Meets C (L t.columns) ∧ st.run.Recounted st'.run := by
  induction t using PlanTree.induct with
  | node group op inputs ih =>
    intro hfits st st' u hs h
    -- The inputs are set up first; their streams meet the contract and the operator keeps it.
    have hnode := hfits group op inputs (mem_subtrees_self _)
    obtain ⟨ts, st₁, hts, hu, hlast⟩ := lower_node_eq_ok h
    have hbelow : ∀ t ∈ inputs, ∀ {st st' u}, s.Recounted st.run →
        lower limits t st = (.ok u, st') →
          u.Meets C (L (columns t)) ∧ st.run.Recounted st'.run := by
      intro t ht
      refine ih t ht fun g op' inputs' hmem => hfits g op' inputs' ?_
      exact mem_subtrees_of_mem ht hmem
    obtain ⟨hmeets, hs₁⟩ := connectAll_eq_ok
      (fun (t : PhysicalPlan) u group hu => TupleStream.Meets.onWorker group u hu) hbelow hs hts
    refine ⟨?_, hs.symm.trans (hs₁.trans hlast)⟩
    rw [columns_node]
    refine stream_meets hL (fun i table p hop row v => ?_) hnode.covers hnode.binds
      (inputsMeet hnode hmeets) hu
    obtain ⟨p, hp⟩ := hs₁
    rw [hp]
    exact hnode.index i table _ hop row v

end Lowering

end QueryEngine
