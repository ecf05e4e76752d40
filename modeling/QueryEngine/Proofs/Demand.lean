import QueryEngine.Proofs.Conduct
import QueryEngine.Proofs.Rows
import QueryEngine.Proofs.Sifting

/-!
# What limits read

A limit over operators on single tuples and a scan reads the rows up to the last one that it needs,
and no further: not when it has what it was asked for, not when it is asked for nothing, and not when
it is pulled beyond its end. A scan counts the rows it reads, so this is told by a counter.
-/

set_option autoImplicit false

namespace QueryEngine

/-! ## Pulls one after another -/

/-- Pulls one after another that are answered with tuples or with the end of the stream, and whether
some answer was the end. Between them counters may change. -/
inductive TupleStream.Pulls : TupleStream → RunState → Bool → RunState → Prop
  | none (t : TupleStream) (s : RunState) : Pulls t s false s
  | row {t rest : TupleStream} {s s₁ s₂ s' : RunState} {u : Tuple} {finished : Bool} :
    t.pull s = .row u s₁ rest → s₁.Recounted s₂ → Pulls rest s₂ finished s' → Pulls t s finished s'
  | finished {t rest : TupleStream} {s s₁ s₂ s' : RunState} {finished : Bool} :
    t.pull s = .finished s₁ rest → s₁.Recounted s₂ → Pulls rest s₂ finished s' → Pulls t s true s'

/-- A run to the end of a stream. -/
theorem TupleStream.pulls_run (t : TupleStream) : ∀ {s}, (t.run s).ending = .finished →
    t.Pulls s true (t.run s).state := by
  induction t using TupleStream.induct with
  | step t ih =>
    intro s h
    rw [run_eq] at h ⊢
    have rests := ih s
    cases hr : t.pull s with
    | row u s₁ rest =>
      rw [hr] at h
      exact .row hr (.count s₁ .pull) (rests u s₁ rest hr h)
    | finished s₁ rest => exact .finished hr (.count s₁ .pull) (.none rest _)
    | failed e s₁ =>
      rw [hr] at h
      cases h
    | crashed c s₁ rest =>
      rw [hr] at h
      cases h

/-- How many rows of a table have been read. -/
def RunState.reads (s : RunState) (h : TableHandle) : Nat := (s.table h).reads

theorem RunState.Recounted.reads {s s' : RunState} (hs : s.Recounted s') (h : TableHandle) :
    s'.reads h = s.reads h := by
  obtain ⟨p, rfl⟩ := hs
  rfl

/-! ## Rows that are needed -/

/-- How many rows are read to find `k` that pass. -/
def rowsRead (passes : Tuple → Bool) : List Tuple → Nat → Nat
  | _, 0 => 0
  | [], _ + 1 => 0
  | u :: us, k + 1 => rowsRead passes us (if passes u then k else k + 1) + 1

theorem rowsRead_nil (passes : Tuple → Bool) (k : Nat) : rowsRead passes [] k = 0 := by
  cases k <;> rfl

theorem rowsRead_cons (passes : Tuple → Bool) (u : Tuple) (us : List Tuple) {k : Nat} (hk : 0 < k) :
    rowsRead passes (u :: us) k = rowsRead passes us (if passes u then k - 1 else k) + 1 := by
  cases k with
  | zero => omega
  | succ k => rfl

/-- Whether `n` rows are those that `k` passing ones ask for: none if `k` is zero, those up to the
`k`-th that passes, and all rows if fewer pass. -/
structure Demanded (passes : Tuple → Bool) (us : List Tuple) (k n : Nat) : Prop where
  none : k = 0 → n = 0
  upTo : ∀ front u back, us = front ++ u :: back → passes u = true →
    (front.filter passes).length + 1 = k → n = front.length + 1
  all : (us.filter passes).length < k → n = us.length

theorem demanded_rowsRead (passes : Tuple → Bool) (us : List Tuple) (k : Nat) :
    Demanded passes us k (rowsRead passes us k) := by
  induction us generalizing k with
  | nil =>
    rw [rowsRead_nil]
    exact ⟨fun _ => rfl, fun front u back h => by simp at h, fun _ => rfl⟩
  | cons u us ih =>
    cases k with
    | zero => exact ⟨fun _ => rfl, fun _ _ _ _ _ h => (by omega), fun h => absurd h (Nat.not_lt_zero _)⟩
    | succ k =>
      obtain ⟨hnone, hupTo, hall⟩ := ih (if passes u then k else k + 1)
      refine ⟨fun h => (by omega), fun front v back hus hv hk => ?_, fun hfew => ?_⟩
      · rw [rowsRead]
        cases front with
        | nil =>
          obtain ⟨rfl, rfl⟩ := List.cons.inj hus
          rw [if_pos hv] at hnone ⊢
          have hzero : k = 0 := by simpa using hk.symm
          rw [hnone hzero, List.length_nil]
        | cons w front =>
          obtain ⟨rfl, rfl⟩ := List.cons.inj hus
          rw [List.length_cons, hupTo front v back rfl hv]
          by_cases hu : passes u = true
          · rw [List.filter_cons_of_pos hu, List.length_cons] at hk
            rw [if_pos hu]
            omega
          · rwa [List.filter_cons_of_neg hu, if_neg hu] at *
      · rw [rowsRead, List.length_cons, hall]
        by_cases hu : passes u = true
        · rw [List.filter_cons_of_pos hu, List.length_cons] at hfew
          rw [if_pos hu]
          omega
        · rwa [List.filter_cons_of_neg hu, if_neg hu] at *

/-! ## Streams that read a table row by row -/

/-- Whether a reply is what comes of the rows that are ahead: a tuple from the first one that passes,
or the end if none does, with one read for each row in front. Replies that fail are left open. -/
def Reply.Digs (s₀ : RunState) (h : TableHandle) (f : Tuple → Option Tuple) :
    List Tuple → Nat → Reply → Prop
  | [], n, r => r.Fails ∨ ∃ s rest, r = .finished s rest ∧ s₀.Still s ∧ s.reads h = n
  | u :: us, n, r => r.Fails ∨
    match f u with
    | none => Reply.Digs s₀ h f us (n + 1) r
    | some v => ∃ s rest, r = .row v s rest ∧ s₀.Still s ∧ s.reads h = n + 1 ∧
        ∀ s', s₀.Still s' → Reply.Digs s₀ h f us (s'.reads h) (rest.pull s')

/-- Whether a stream reads the rows that are ahead one by one, as far as it has to. -/
def TupleStream.Digs (s₀ : RunState) (h : TableHandle) (f : Tuple → Option Tuple) (us : List Tuple)
    (t : TupleStream) : Prop :=
  ∀ s, s₀.Still s → Reply.Digs s₀ h f us (s.reads h) (t.pull s)

section

variable {s₀ : RunState} {h : TableHandle} {f g : Tuple → Option Tuple} {us : List Tuple}

theorem Reply.digs_cons {u : Tuple} {r : Reply} {n : Nat} :
    Reply.Digs s₀ h f (u :: us) n r ↔ r.Fails ∨ (f u = none ∧ Reply.Digs s₀ h f us (n + 1) r) ∨
      ∃ v s rest, f u = some v ∧ r = .row v s rest ∧ s₀.Still s ∧ s.reads h = n + 1 ∧
        ∀ s', s₀.Still s' → Reply.Digs s₀ h f us (s'.reads h) (rest.pull s') := by
  rw [Reply.Digs]
  refine or_congr_right ?_
  cases f u <;> simp

/-- Reading the next row counts one more. -/
theorem RunState.reads_setTable {s : RunState} {c d : Cursor} {u : Tuple} {t : Table}
    (hn : c.next? (s.table h) = some (u, d, t)) : (s.setTable h t).reads h = s.reads h + 1 := by
  obtain ⟨row, hfind, he⟩ := Option.map_eq_some_iff.1 hn
  have hlt : h.number < s.store.tables.length := by
    by_contra hge
    have hempty : s.table h = .empty "" [] := by
      simp [RunState.table, TableHandle.table, Store.table, List.getD_eq_getElem?_getD,
        List.getElem?_eq_none (Nat.not_lt.1 hge)]
    rw [hempty] at hfind
    cases hfind
  have ht : t = { s.table h with reads := (s.table h).reads + 1 } := (congrArg (·.2.2) he).symm
  have hset : (s.setTable h t).table h = t := by
    simp [RunState.setTable, RunState.table, TableHandle.table, Store.setTable, Store.table, hlt]
  rw [RunState.reads, hset, ht]
  rfl

namespace TupleStream.Digs

theorem ofCursor (pulls : Nat) {c : Cursor} (hrows : (s₀.table h).rows.Pairwise (·.1 < ·.1))
    (hpulls : (c.remaining (s₀.table h)).length ≤ pulls) :
    (TupleStream.ofCursor h pulls c).Digs s₀ h some (c.remaining (s₀.table h)) := by
  induction pulls generalizing c with
  | zero =>
    rw [List.eq_nil_of_length_eq_zero (Nat.le_zero.1 hpulls)]
    exact fun s hs => .inr ⟨s, .ended, rfl, hs, rfl⟩
  | succ pulls ih =>
    intro s hs
    rcases pull_ofCursor (hs.rows h) hrows pulls c with
      ⟨hnil, hpull⟩ | ⟨u, d, t, hn, ht, hcons, hpull⟩
    · rw [hnil, hpull]
      exact .inr ⟨s, _, rfl, hs, rfl⟩
    · rw [hcons, List.length_cons] at hpulls
      rw [hcons, hpull]
      refine .inr ⟨_, _, rfl, hs.setTable ht, RunState.reads_setTable hn, ?_⟩
      exact ih (Nat.le_of_succ_le_succ hpulls)

end TupleStream.Digs

/-- What a step does to a tuple while nothing changes but counters: it fails, or it makes of it what
`g` says. -/
def StepsTo (s₀ : RunState) (g : Tuple → Option Tuple)
    (step : Tuple → RunState → Verdict Unit × RunState) : Prop :=
  ∀ u s, s₀.Still s → s.Recounted (step u s).2 ∧
    ((∃ e, (step u s).1 = .fail e) ∨ (g u).elim (.drop ()) (.emit · ()) = (step u s).1)

variable {step : Tuple → RunState → Verdict Unit × RunState}

theorem Reply.Digs.stateless (hstep : StepsTo s₀ g step) {r : Reply} {n : Nat}
    (hr : Reply.Digs s₀ h f us n r) :
    Reply.Digs s₀ h (fun u => (f u).bind g) us n (r.transduce (.stateless step) ()) := by
  induction us generalizing r n with
  | nil =>
    rcases hr with hr | ⟨s, rest, rfl, hs, hn⟩
    · exact .inl (hr.transduce _ _)
    · exact .inr ⟨s, _, rfl, hs, hn⟩
  | cons u us ih =>
    rw [Reply.digs_cons] at hr ⊢
    rcases hr with hr | ⟨hf, hr⟩ | ⟨v, s, rest, hf, rfl, hs, hn, hrest⟩
    · exact .inl (hr.transduce _ _)
    · exact .inr (.inl ⟨by rw [hf]; rfl, ih hr⟩)
    · obtain ⟨hcount, hverdict⟩ := hstep v s hs
      have hsame : (Transducer.stateless step).step () = step := rfl
      have hreads := (hcount.reads h).trans hn
      have hbelow : ∀ s', s₀.Still s' → Reply.Digs s₀ h (fun u => (f u).bind g) us (s'.reads h)
          ((rest.transduce (.stateless step) ()).pull s') := by
        intro s' hs'
        rw [Transducer.stateless, TupleStream.pull_steady]
        exact ih (hrest s' hs')
      simp only [Reply.transduce, hsame, hf, Option.bind_some]
      generalize step v s = turned at hcount hverdict hreads
      obtain ⟨verdict, s'⟩ := turned
      have hstill := hs.recount hcount
      rcases hverdict with ⟨e, rfl⟩ | rfl
      · exact .inl (Reply.ofFailure_fails e s' _)
      · cases hg : g v with
        | some w => exact .inr (.inr ⟨w, s', _, rfl, rfl, hstill, hreads, hbelow⟩)
        | none =>
          refine .inr (.inl ⟨rfl, ?_⟩)
          rw [← hreads]
          exact hbelow s' hstill

theorem TupleStream.Digs.stateless (hstep : StepsTo s₀ g step) {t : TupleStream}
    (ht : t.Digs s₀ h f us) :
    (t.transduce (.stateless step) ()).Digs s₀ h (fun u => (f u).bind g) us := by
  intro s hs
  rw [Transducer.stateless, pull_steady]
  exact (ht s hs).stateless hstep

end

/-! ## Operators on single tuples -/

/-- Whether a predicate holds for a tuple and does not fail. -/
def Predicate.keeps (b : Bindings) (p : Predicate) (u : Tuple) : Bool :=
  match p.holds b u with
  | .ok keep => keep
  | .error _ => false

/-- The tuple with the result of a function, unless that fails. -/
def Function.extends? (b : Bindings) (k : Function) (arguments : List Binding) (cs : List Column)
    (u : Tuple) : Option Tuple :=
  match (b.resolveEach (some u) arguments).bind k.invoke with
  | .ok v => some (u.extend cs v)
  | .error _ => none

/-- A stack of filters, functions and selections over the scan of a whole table, all in one group,
with what becomes of a row: a tuple, if it passes every filter. -/
inductive PhysicalPlan.Stack (b : Bindings) (g : GroupId) (h : TableHandle) (cs : List Column) :
    PhysicalPlan → (Tuple → Option Tuple) → Prop
  | scan : Stack b g h cs (.node g (.scan h cs 0 1) []) some
  | filter {t : PhysicalPlan} {f : Tuple → Option Tuple} (p : Predicate) : Stack b g h cs t f →
    Stack b g h cs (.node g (.filter p) [t]) fun u =>
      (f u).bind (Option.guard (p.keeps b))
  | function {t : PhysicalPlan} {f : Tuple → Option Tuple} (k : Function) (arguments : List Binding)
    (out : Column) : Stack b g h cs t f →
    Stack b g h cs (.node g (.function k arguments out) [t]) fun u =>
      (f u).bind (k.extends? b arguments (t.columns ++ [out]))
  | select {t : PhysicalPlan} {f : Tuple → Option Tuple} (ds : List Column) : Stack b g h cs t f →
    Stack b g h cs (.node g (.projection (.select ds)) [t]) fun u =>
      (f u).bind fun v => (v.project ds).toOption

section

variable {s₀ : RunState}

theorem stepsTo_filter (p : Predicate) :
    StepsTo s₀ (Option.guard (p.keeps s₀.bindings)) fun u s =>
      match p.holds s.bindings u with
      | .error f => (.fail f, s)
      | .ok keep => (if keep then .emit u () else .drop (), s.count .filter) := by
  intro u s hs
  dsimp only
  rw [← hs.bindings]
  cases hp : p.holds s.bindings u with
  | error f => exact ⟨.refl s, .inl ⟨f, rfl⟩⟩
  | ok keep =>
    have hkeep : p.keeps s.bindings u = keep := by rw [Predicate.keeps, hp]
    rw [Option.guard, hkeep]
    cases keep <;> exact ⟨.count s .filter, .inr rfl⟩

theorem stepsTo_function (k : Function) (arguments : List Binding) (cs : List Column) :
    StepsTo s₀ (k.extends? s₀.bindings arguments cs) fun u s =>
      (.ofResult ((s.bindings.resolveEach (some u) arguments).bind k.invoke) fun v =>
        .emit (u.extend cs v) (), s) := by
  intro u s hs
  simp only [hs.bindings, Function.extends?]
  cases (s₀.bindings.resolveEach (some u) arguments).bind k.invoke with
  | error f => exact ⟨.refl s, .inl ⟨f, rfl⟩⟩
  | ok v => exact ⟨.refl s, .inr rfl⟩

theorem stepsTo_select (ds : List Column) :
    StepsTo s₀ (fun v => (v.project ds).toOption) fun u s =>
      (.ofResult (Crash.lifted (u.project ds)) (.emit · ()), s) := by
  intro u s _
  refine ⟨.refl s, ?_⟩
  dsimp only
  cases u.project ds with
  | error c => exact .inl ⟨.crashed c, rfl⟩
  | ok v => exact .inr rfl

end

namespace Lowering

/-- The stream of an operator over an input of its own group is set up over that of the input. -/
theorem lower_same_group {limits : RunLimits} {g : GroupId} {op : Operator} {t : PhysicalPlan}
    (hg : t.group = g) {st st' : LoweringState} {v : TupleStream}
    (h : lower limits (.node g op [t]) st = (.ok v, st')) :
    ∃ u st₁, lower limits t st = (.ok u, st₁) ∧
      stream limits st₁.run op (op.columns t.columns) [g] [u] = .ok v ∧
      st₁.run.Recounted st'.run := by
  obtain ⟨ts, st₁, hts, hv, hcount⟩ := lower_node_eq_ok h
  obtain ⟨u, st₂, hu, hts⟩ := bind_eq_ok.1 hts
  obtain ⟨w, st₃, hw, hts⟩ := bind_eq_ok.1 hts
  rw [connect_apply, if_neg (by simp [hg])] at hw
  cases hw
  cases hts
  exact ⟨u, st₁, hu, by simpa [hg] using hv, hcount⟩

/-- Operators on single tuples, over an input of their own group, read what their input reads. -/
theorem digs_same_group {limits : RunLimits} {g : GroupId} {op : Operator} {t : PhysicalPlan}
    (hg : t.group = g) {s₀ : RunState} {h : TableHandle} {f f' : Tuple → Option Tuple}
    {us : List Tuple} {step : Tuple → RunState → Verdict Unit × RunState}
    (hop : ∀ s u, stream limits s op (op.columns t.columns) [g] [u] =
      .ok (u.transduce (.stateless step) ()))
    (hstep : StepsTo s₀ f' step)
    (ht : ∀ {st st' v}, s₀.Recounted st.run → lower limits t st = (.ok v, st') →
      s₀.Recounted st'.run ∧ v.Digs s₀ h f us)
    {st st' : LoweringState} {v : TupleStream} (hst : s₀.Recounted st.run)
    (hv : lower limits (.node g op [t]) st = (.ok v, st')) :
    s₀.Recounted st'.run ∧ v.Digs s₀ h (fun u => (f u).bind f') us := by
  obtain ⟨u, st₁, hu, hv, hcount⟩ := lower_same_group hg hv
  obtain ⟨hst₁, hdigs⟩ := ht hst hu
  cases (hop st₁.run u).symm.trans hv
  exact ⟨hst₁.trans hcount, hdigs.stateless hstep⟩

end Lowering

namespace PhysicalPlan.Stack

variable {b : Bindings} {g : GroupId} {h : TableHandle} {cs : List Column} {t : PhysicalPlan}
  {f : Tuple → Option Tuple}

theorem group_eq (ht : Stack b g h cs t f) : t.group = g := by
  cases ht <;> rfl

theorem digs (ht : Stack b g h cs t f) {s₀ : RunState} (hb : s₀.bindings = b)
    (htable : (s₀.table h).Sound) (hfaults : h.faults.scanFailure = none) {limits : RunLimits} :
    ∀ {st st' : LoweringState} {v}, s₀.Recounted st.run →
      Lowering.lower limits t st = (.ok v, st') → s₀.Recounted st'.run ∧
        v.Digs s₀ h f ((s₀.table h).rows.map ((s₀.table h).tuple cs)) := by
  induction ht with
  | scan =>
    intro st st' v hst hv
    obtain ⟨ts, st₁, hts, hv, hcount⟩ := Lowering.lower_node_eq_ok hv
    cases hts
    refine ⟨hst.trans hcount, ?_⟩
    have hstore : st.run.store = s₀.store := by
      obtain ⟨p, hp⟩ := hst
      rw [hp]
    change TupleStream.scan h st.run.store cs 0 1 = .ok v at hv
    rw [hstore] at hv
    obtain ⟨_, places, hplaces⟩ := TupleStream.scan_eq_ok hv
    cases hv.symm.trans (TupleStream.scan_whole hfaults hplaces)
    change (s₀.table h).positions cs = .ok places at hplaces
    rw [← Table.remaining_whole hplaces]
    refine .ofCursor _ htable.ascending ?_
    have hlength := Cursor.remaining_length_le ⟨cs, places, 0, 1, none⟩ (s₀.table h)
    exact Nat.le_trans hlength (Nat.le_trans htable.length_le (by decide))
  | filter p ht ih =>
    intro st st' v hst hv
    subst hb
    exact Lowering.digs_same_group ht.group_eq (fun _ _ => rfl) (stepsTo_filter p) ih hst hv
  | function k arguments out ht ih =>
    intro st st' v hst hv
    subst hb
    exact Lowering.digs_same_group ht.group_eq (fun _ _ => rfl) (stepsTo_function k arguments _) ih
      hst hv
  | select ds ht ih =>
    intro st st' v hst hv
    exact Lowering.digs_same_group ht.group_eq (fun _ _ => rfl) (stepsTo_select ds) ih hst hv

end PhysicalPlan.Stack

/-! ## Limits -/

namespace TupleStream

/-- The machine of a limit: how many tuples are still to be dropped, and how many emitted. -/
def limiter : Transducer (Nat × Nat) where
  isReady left := .ok (left != (0, 0))
  step left u s :=
    (if 0 < left.1 then .drop (left.1 - 1, left.2) else .emit u (0, left.2 - 1), s)
  atEnd _ := (0, 0)

theorem limit_eq (bounds : RowLimit) (t : TupleStream) :
    t.limit bounds = t.transduce limiter (bounds.skip.toNat, bounds.limit.toNat) := rfl

/-- Whether a stream is at its end and does nothing any more. -/
def Idle (t : TupleStream) : Prop := ∀ s, t.pull s = .finished s .ended

theorem idle_ended : ended.Idle := fun _ => rfl

theorem idle_limiter (t : TupleStream) : (t.transduce limiter (0, 0)).Idle := by
  intro s
  rw [pull_transduce (m := limiter) (a := (0, 0)) rfl]
  rfl

theorem pull_limiter {skip room : Nat} (hopen : 0 < skip + room) (t : TupleStream) (s : RunState) :
    (t.transduce limiter (skip, room)).pull s = (t.pull s).transduce limiter (skip, room) := by
  have hready : limiter.isReady (skip, room) = .ok true := by
    simp only [limiter, Except.ok.injEq, bne_iff_ne, ne_eq, Prod.mk.injEq]
    omega
  rw [pull_transduce hready, if_pos rfl]

theorem Idle.reads {t : TupleStream} {s s' : RunState} {finished : Bool} (ht : t.Idle)
    (h : t.Pulls s finished s') (x : TableHandle) : s'.reads x = s.reads x := by
  induction h with
  | none t s => rfl
  | row hr _ _ _ =>
    rw [ht] at hr
    cases hr
  | finished hr hcount _ ih =>
    rw [ht] at hr
    cases hr
    exact (ih idle_ended).trans (hcount.reads x)

end TupleStream

section

variable {s₀ : RunState} {h : TableHandle} {f : Tuple → Option Tuple} {us : List Tuple}

/-- What a limit answers on the way to `m` reads in all: a tuple, with rows left for the tuples that
are still wanted; the end, to stay there; or a failure. -/
inductive Reply.LeadsTo (s₀ : RunState) (h : TableHandle) (f : Tuple → Option Tuple) (m : Nat) :
    Reply → Prop
  | row {u : Tuple} {s : RunState} {rest : TupleStream} {us : List Tuple} {left : Nat}
    (hs : s₀.Still s) (hrest : rest.Digs s₀ h f us)
    (hreads : s.reads h + rowsRead (fun u => (f u).isSome) us left = m) :
    LeadsTo s₀ h f m (.row u s (rest.transduce TupleStream.limiter (0, left)))
  | finished {s : RunState} {rest : TupleStream} (hs : s₀.Still s) (hrest : rest.Idle)
    (hreads : s.reads h = m) : LeadsTo s₀ h f m (.finished s rest)
  | fails {r : Reply} (hr : r.Fails) : LeadsTo s₀ h f m r

theorem Reply.Digs.limiter {r : Reply} {n skip room : Nat} (hr : Reply.Digs s₀ h f us n r)
    (hopen : 0 < skip + room) :
    (r.transduce TupleStream.limiter (skip, room)).LeadsTo s₀ h f
      (n + rowsRead (fun u => (f u).isSome) us (skip + room)) := by
  induction us generalizing r n skip room with
  | nil =>
    rw [rowsRead_nil]
    rcases hr with hr | ⟨s, rest, rfl, hs, hn⟩
    · exact .fails (hr.transduce _ _)
    · exact .finished hs (TupleStream.idle_limiter rest) hn
  | cons u us ih =>
    rw [rowsRead_cons _ _ _ hopen]
    rcases Reply.digs_cons.1 hr with hr | ⟨hf, hr⟩ | ⟨v, s, rest, hf, rfl, hs, hn, hrest⟩
    · exact .fails (hr.transduce _ _)
    · have hbelow := ih hr hopen
      rw [hf, Option.isSome_none, if_neg Bool.false_ne_true, Nat.add_comm (rowsRead _ _ _) 1,
        ← Nat.add_assoc]
      exact hbelow
    · rw [hf, Option.isSome_some, if_pos rfl]
      cases skip with
      | zero =>
        refine .row hs hrest ?_
        rw [hn, Nat.zero_add, Nat.add_assoc, Nat.add_comm 1]
      | succ skip =>
        have hreply : (Reply.row v s rest).transduce TupleStream.limiter (skip + 1, room) =
            (rest.transduce TupleStream.limiter (skip, room)).pull s := rfl
        rw [hreply]
        rcases Nat.eq_zero_or_pos (skip + room) with hclosed | hopen'
        · obtain ⟨rfl, rfl⟩ : skip = 0 ∧ room = 0 := by omega
          rw [TupleStream.idle_limiter rest s]
          exact .finished hs TupleStream.idle_ended (by rw [hn, rowsRead])
        · have hbelow := ih (hrest s hs) hopen'
          rw [TupleStream.pull_limiter hopen']
          rw [hn] at hbelow
          have htotal : skip + 1 + room - 1 = skip + room := by omega
          rw [htotal, Nat.add_comm (rowsRead _ _ _) 1, ← Nat.add_assoc]
          exact hbelow

/-- However often a limit is pulled: once it has found its end, it has read the rows that it needs. -/
theorem TupleStream.Pulls.reads_limiter {v : TupleStream} {s s' : RunState} {finished : Bool}
    (hpulls : v.Pulls s finished s') : ∀ {t : TupleStream} {us skip room}, v = t.transduce limiter (skip, room) →
      t.Digs s₀ h f us → s₀.Still s → finished = true →
      s'.reads h = s.reads h + rowsRead (fun u => (f u).isSome) us (skip + room) := by
  induction hpulls with
  | none v s =>
    intro t us skip room _ _ _ hfinished
    cases hfinished
  | @row v rest s s₁ s₂ s' u finished hr hcount _ ih =>
    rintro t us skip room rfl ht hs hfinished
    rcases Nat.eq_zero_or_pos (skip + room) with hclosed | hopen
    · obtain ⟨rfl, rfl⟩ : skip = 0 ∧ room = 0 := by omega
      rw [idle_limiter t s] at hr
      cases hr
    · have hleads := (ht s hs).limiter hopen
      rw [← pull_limiter hopen, hr] at hleads
      cases hleads with
      | row hs₁ hrest hreads =>
        have hlater := ih rfl hrest (hs₁.recount hcount) hfinished
        rw [hlater, hcount.reads, Nat.zero_add, hreads]
      | fails hfails => exact hfails.elim
  | @finished v rest s s₁ s₂ s' finished hr hcount hrest _ =>
    rintro t us skip room rfl ht hs _
    rcases Nat.eq_zero_or_pos (skip + room) with hclosed | hopen
    · obtain ⟨rfl, rfl⟩ : skip = 0 ∧ room = 0 := by omega
      rw [idle_limiter t s] at hr
      cases hr
      rw [idle_ended.reads hrest, hcount.reads, rowsRead]
      rfl
    · have hleads := (ht s hs).limiter hopen
      rw [← pull_limiter hopen, hr] at hleads
      cases hleads with
      | finished hs₁ hidle hreads => rw [hidle.reads hrest, hcount.reads, hreads]
      | fails hfails => exact hfails.elim

end

/-- A limit over a stack of filters, functions and selections over the scan of a table, all in one
group. Once pulls have found its end, and however often it is pulled then, the table has counted a
read for every row up to the last one that the limit asks for. -/
theorem Lowering.limit_reads_demanded {b : Bindings} {g : GroupId} {h : TableHandle}
    {cs : List Column} {c : PhysicalPlan} {f : Tuple → Option Tuple} (hc : c.Stack b g h cs f)
    (bounds : RowLimit) {q : QueryContext} {e : EngineState} (hb : q.bindings = b)
    (htable : (h.table e.store).Reachable) (hfaults : h.faults.scanFailure = none)
    (limits : RunLimits) :
    let t : PhysicalPlan := .node g (.limit bounds) [c]
    let demanded (s : RunState) : Prop :=
      ∃ n, s.reads h = (h.table e.store).reads + n ∧
        Demanded (fun u => (f u).isSome) ((h.table e.store).rows.map ((h.table e.store).tuple cs))
          (bounds.skip.toNat + bounds.limit.toNat) n
    (∀ v st, lower limits t ⟨q.runState e, 0⟩ = (.ok v, st) →
      ∀ s, v.Pulls st.run true s → demanded s) ∧
    ∀ r, t.execute limits q e = pure r → r.ending = .finished → demanded r.state := by
  intro t demanded
  have hstream : ∀ v st, lower limits t ⟨q.runState e, 0⟩ = (.ok v, st) →
      (q.runState e).Recounted st.run ∧ ∀ s, v.Pulls st.run true s → demanded s := by
    intro v st hv
    obtain ⟨u, st₁, hu, hv, hcount⟩ := lower_same_group hc.group_eq hv
    have hsound : ((q.runState e).table h).Sound := htable.sound
    obtain ⟨hst₁, hdigs⟩ := hc.digs hb hsound hfaults (.refl _) hu
    cases hv
    have hst := hst₁.trans hcount
    refine ⟨hst, fun s hpulls => ⟨_, ?_, demanded_rowsRead _ _ _⟩⟩
    have hreads := hpulls.reads_limiter rfl hdigs ((RunState.Still.refl _).recount hst) rfl
    rw [hreads, hst.reads]
    rfl
  refine ⟨fun v st hv => (hstream v st hv).2, fun r hr hends => ?_⟩
  obtain ⟨hbind, hlive⟩ := PhysicalPlan.bound_of_execute limits t hr
  rw [PhysicalPlan.execute_of_bind limits t hbind hlive] at hr
  cases hlower : lower limits t ⟨q.runState e, 0⟩ with
  | mk result st =>
    rw [hlower] at hr
    cases result with
    | error f => cases f <;> cases hr
    | ok v =>
      cases hr
      obtain ⟨hst, hdemanded⟩ := hstream v st hlower
      apply hdemanded
      have hrun : (⟨st.run.store, st.run.profile, q.bindings, 0⟩ : RunState) = st.run := by
        obtain ⟨p, hp⟩ := hst
        rw [hp]
        rfl
      rw [hrun] at hends ⊢
      exact v.pulls_run hends

namespace Fours

def key : Column := ⟨"t.k", .long, false⟩

def row (id : RowId) (n : Int64) : RowId × List Value := (id, [.long n])

def table : Table := ⟨"t", [key], [row 0 4, row 1 5, row 2 4, row 3 6], 4, [], 0⟩

theorem table_reachable : table.Reachable := by
  have hempty := Table.Reachable.empty "t" [key]
  have hfirst : (Table.empty "t" [key]).insert [key] [.long 4] =
      .ok (0, ⟨"t", [key], [row 0 4], 1, [], 0⟩) := by decide
  have hsecond : (⟨"t", [key], [row 0 4], 1, [], 0⟩ : Table).insert [key] [.long 5] =
      .ok (1, ⟨"t", [key], [row 0 4, row 1 5], 2, [], 0⟩) := by decide
  have hthird : (⟨"t", [key], [row 0 4, row 1 5], 2, [], 0⟩ : Table).insert [key] [.long 4] =
      .ok (2, ⟨"t", [key], [row 0 4, row 1 5, row 2 4], 3, [], 0⟩) := by decide
  have hfourth : (⟨"t", [key], [row 0 4, row 1 5, row 2 4], 3, [], 0⟩ : Table).insert [key]
      [.long 6] = .ok (3, table) := by decide
  have htwo := Table.Reachable.insert (.insert hempty (by decide) hfirst) (by decide) hsecond
  exact .insert (.insert htwo (by decide) hthird) (by decide) hfourth

def engine : EngineState := ⟨⟨[table]⟩, .empty⟩

def handle : TableHandle := engine.store.handle 0

def query : QueryContext := ⟨.none, .standard, ⟨[some (.long 4)], []⟩, 0, false⟩

def filter : Predicate := .atom (.relation .equal (.column key) (.literal 0 (some .long))) false

def fours : PhysicalPlan :=
  .node 0 (.projection (.select [key]))
    [.node 0 (.filter filter) [.node 0 (.scan handle [key] 0 1) []]]

def tuple (id : RowId) (n : Int64) : Tuple := ⟨id, [key], [.long n]⟩

/-- The second row in which there is a four. -/
def plan : PhysicalPlan := .node 0 (.limit ⟨1, 1⟩) [fours]

end Fours

open Fours in
/-- The fourth row is not read. -/
theorem Lowering.limit_reads_demanded_fours : ∃ r, plan.execute ⟨0, 1, true⟩ query engine = pure r ∧
    r.ending = .finished ∧ r.rows = [tuple 2 4] ∧ r.state.reads handle = 3 := by
  have hstack : fours.Stack query.bindings 0 handle [key] _ := .select [key] (.filter filter .scan)
  obtain ⟨-, hruns⟩ :=
    limit_reads_demanded hstack ⟨1, 1⟩ (q := query) (e := engine) rfl table_reachable rfl ⟨0, 1, true⟩
  have hfound : ∃ r, plan.execute ⟨0, 1, true⟩ query engine = pure r ∧ r.ending = .finished ∧
      r.rows = [tuple 2 4] := ⟨_, rfl, rfl, rfl⟩
  obtain ⟨r, hr, hends, hrows⟩ := hfound
  obtain ⟨n, hreads, hdemanded⟩ := hruns r hr hends
  obtain rfl : n = 3 := hdemanded.upTo [tuple 0 4, tuple 1 5] (tuple 2 4) [tuple 3 6] rfl rfl rfl
  exact ⟨r, hr, hends, hrows, hreads⟩

end QueryEngine
