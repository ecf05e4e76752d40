import QueryEngine.Proofs.ReadOnly
import QueryEngine.Proofs.RowWrites
import QueryEngine.Proofs.Rows
import QueryEngine.Proofs.Workers

/-!
# Writes over live scans

An update or a delete changes the table that its input is still scanning. Whatever the input does with
a tuple, it looks at rows of the table no earlier than the tuple's own, and the row is written once the
tuple has been given. A worker may do so before some of the writes for earlier tuples. So the tuples are
those that the input gives on the table as it was, and the table becomes what it would become if they
were collected first.
-/

set_option autoImplicit false

namespace QueryEngine

/-! ## A run that lags behind in writes -/

/-- What lies between a run that only reads and one that also writes to a table. -/
structure Gap where
  /-- The late-bound values of both runs. -/
  bindings : Bindings
  /-- What the writes have made of the table. -/
  change : Table → Table
  /-- How many rows have been written. -/
  writes : Nat

namespace Gap

variable {n : Nat} {x : Store} {g : Gap} {k : RowId} {s s' : RunState}

/-- Whether the first of two states has the tables of the store `x` and the second one is the first one
with the writes to table `n`. -/
structure Meets (g : Gap) (n : Nat) (x : Store) (s s' : RunState) : Prop where
  unwritten : s.Unwritten x
  bindings : s.bindings.AgreeOn (fun _ => True) g.bindings
  bindings' : s'.bindings.AgreeOn (fun _ => True) g.bindings
  store : s'.store = s.store.change n g.change
  affected : s'.affected = s.affected + g.writes

def still (s : RunState) : Gap := ⟨s.bindings, fun t => t, 0⟩

def write (g : Gap) (f : Table → Table) : Gap :=
  { g with change := fun t => f (g.change t), writes := g.writes + 1 }

/-- States are compared up to the writes. -/
def bond (g : Gap) (n : Nat) (x : Store) : Bond := ⟨g.Meets n x, fun _ => False, False⟩

theorem still_meets (n : Nat) (hs : s.Unwritten x) : (still s).Meets n x s s where
  unwritten := hs
  bindings := .of_eq rfl
  bindings' := .of_eq rfl
  store := (s.store.change_id n).symm
  affected := rfl

namespace Meets

theorem same (h : g.Meets n x s s') : s'.bindings.AgreeOn (fun _ => True) s.bindings :=
  h.bindings'.trans h.bindings.symm

theorem recount {y y' : RunState} (h : g.Meets n x s s') (hy : s.Recounted y)
    (hy' : s'.Recounted y') : g.Meets n x y y' := by
  obtain ⟨p, rfl⟩ := hy
  obtain ⟨p', rfl⟩ := hy'
  exact ⟨h.unwritten, h.bindings, h.bindings', h.store, h.affected⟩

theorem count (item : ProfileItem) (h : g.Meets n x s s') :
    g.Meets n x (s.count item) (s'.count item) :=
  h.recount (.count s item) (.count s' item)

theorem table_eq (hg : Table.Behind k g.change) (hs : g.Meets n x s s') :
    s'.store.table n = g.change (s.store.table n) := by
  rw [hs.store]
  exact Store.table_change hg.missing s.store

/-- Every table is seen as it is, or with the writes. -/
theorem seen (hg : Table.Behind k g.change) (h : g.Meets n x s s') (t : TableHandle) :
    ∃ f, Table.Behind k f ∧ s'.table t = f (s.table t) ∧ ∀ y : Table,
      y.unread = (s.table t).unread → g.Meets n x (s.setTable t y) (s'.setTable t (f y)) := by
  have hunwritten {y : Table} (hy : y.unread = (s.table t).unread) :
      (s.setTable t y).Unwritten x := (Store.unread_setTable hy).trans h.unwritten
  by_cases hn : t.number = n
  · subst hn
    refine ⟨g.change, hg, ?_, fun y hy => ⟨hunwritten hy, h.bindings, h.bindings', ?_, h.affected⟩⟩
    · exact h.table_eq hg
    · simp only [RunState.setTable, h.store]
      exact Store.setTable_change_self s.store t.number g.change y
  · refine ⟨fun y => y, .id k, ?_, fun y hy =>
      ⟨hunwritten hy, h.bindings, h.bindings', ?_, h.affected⟩⟩
    · simp only [RunState.table, TableHandle.table, h.store]
      exact Store.table_setTable_of_ne hn s.store _
    · simp only [RunState.setTable, h.store]
      exact Store.setTable_change hn s.store g.change y

/-- What a write sees of the table is as without the writes. -/
theorem written {h : TableHandle} (hg : Table.Behind k g.change) (hs : g.Meets h.number x s s') :
    (s'.table h).name = (x.table h.number).name ∧
      (s'.table h).columns = (x.table h.number).columns ∧
      ∀ id, k < id →
        (id ∈ (s'.table h).rows.map (·.1) ↔ id ∈ (x.table h.number).rows.map (·.1)) := by
  have htable : s'.table h = g.change (s.table h) := hs.table_eq hg
  have hunread : (s.table h).unread = (x.table h.number).unread :=
    Store.table_of_unread hs.unwritten h.number
  have hname : (s.table h).unread.name = (x.table h.number).unread.name :=
    congrArg Table.name hunread
  have hcolumns : (s.table h).unread.columns = (x.table h.number).unread.columns :=
    congrArg Table.columns hunread
  rw [htable]
  refine ⟨(hg.name _).trans hname, (hg.columns _).trans hcolumns, fun id hid => ?_⟩
  rw [hg.mem_rows hid, Table.rows_of_unread hunread]

/-- A write that is accepted in one state is accepted in all states that are alike but for writes to
earlier rows. -/
theorem apply {w : RowWrite} {h : TableHandle} {u : Tuple} {s₁ : RunState}
    (hg : Table.Behind k g.change) (hk : k < u.row) (hu : u.row ∈ (x.table h.number).rows.map (·.1))
    (hs : g.Meets h.number x s s') (hok : w.apply h u s' = (.ok (), s₁)) :
    ∃ f, Table.Behind u.row f ∧ ∀ y y', g.Meets h.number x y y' →
      ∃ z, w.apply h u y' = (.ok (), z) ∧ (g.write f).Meets h.number x y z := by
  obtain ⟨hname, hcolumns, hrows⟩ := hs.written hg
  obtain ⟨f, hf, happly⟩ := w.apply_ok h hok ((hrows _ hk).2 hu)
  refine ⟨f, hf, fun y y' hy => ?_⟩
  obtain ⟨hname', hcolumns', hrows'⟩ := hy.written hg
  have hwrite := happly y' (hy.bindings'.trans hs.bindings'.symm) (hname'.trans hname.symm)
    (hcolumns'.trans hcolumns.symm) ((hrows' _ hk).2 hu)
  refine ⟨_, hwrite, hy.unwritten, hy.bindings, hy.bindings', ?_, ?_⟩
  · rw [hy.store]
    exact Store.change_change hg.missing y.store f
  · have hcount := hy.affected
    exact congrArg (· + 1) hcount

end Meets

end Gap

/-! ### What workers find -/

namespace Bindings.AgreeOn

variable {sees : Groups} {b b' c : Bindings}

theorem withResults_both (h : b.AgreeOn sees b') (r : Bindings) (groups : List GroupId) :
    (b.withResults r groups).AgreeOn sees (b'.withResults r groups) where
  slots := h.slots
  results g hg := by rw [subquery?_withResults, subquery?_withResults, h.results g hg]

/-- Results that were found are given back. -/
theorem withResults_back {r : Bindings} {groups : List GroupId}
    (h : b.AgreeOn sees (c.withResults r groups)) (h' : b'.AgreeOn sees c) :
    (b.withResults b' groups).AgreeOn sees c where
  slots := h.slots
  results g hg := by
    have hfound := h.results g hg
    rw [subquery?_withResults] at hfound ⊢
    by_cases hgroup : g ∈ groups
    · rw [if_pos hgroup]
      exact h'.results g hg
    · rw [if_neg hgroup] at hfound ⊢
      exact hfound

end Bindings.AgreeOn

theorem Store.change_withRows {n : Nat} {tables : List Nat} (h : ∀ j ∈ tables, j = n)
    (s others : Store) (f : Table → Table) :
    (s.change n f).withRows others tables = s.change n fun t =>
      if n ∈ tables then { f t with rows := (others.table n).rows } else f t := by
  refine congrArg Store.mk (List.ext_getElem (by simp [change, setTable]) fun j hj hj' => ?_)
  simp only [change, setTable, List.getElem_mapIdx, List.getElem_set]
  by_cases hn : n = j
  · subst hn
    simp only [if_true]
  · rw [if_neg hn, if_neg hn, if_neg fun hmem => hn (h j hmem).symm]

namespace Gap

/-- The gap that a worker finds in place of one between its consumers, which have the table `t`: it
finds these results and rows of what is common. -/
def found (g : Gap) (n : Nat) (m : Commons) (t : Table) (results : Bindings)
    (rows : List (RowId × List Value)) : Gap where
  bindings := g.bindings.withResults results m.groups
  change := Table.refound g.change t rows (n ∈ m.tables)
  writes := g.writes

namespace Meets

variable {n : Nat} {x : Store} {g : Gap} {k : RowId} {s s' s₁ s₁' : RunState} {m : Commons}
  {o : Others} {results : Bindings} {rows : List (RowId × List Value)}

/-- Some of the writes may not have been made yet when a worker pulls. -/
theorem found_behind (ho : o.Follow x) (hg : Table.Behind k g.change) (hs : g.Meets n x s s')
    (i : Nat) : Table.Behind k (g.found n m (s.store.table n) results
      ((o.rows i s'.store).table n).rows).change := by
  have hstart : (s.store.table n).rows = (x.table n).rows :=
    Table.rows_of_unread (Store.table_of_unread hs.unwritten n)
  refine hg.refound (s.store.table n) (fun p hp => ?_) _
  rw [← hs.table_eq hg, hstart] at hp
  rw [ho i s'.store n p hp, hstart]

theorem found (hm : ∀ j ∈ m.tables, j = n) (ho : o.Follow x) (hs : g.Meets n x s s') (i : Nat) :
    (g.found n m (s.store.table n) (o.results i) ((o.rows i s'.store).table n).rows).Meets n x
      (s.beside m (o.results i) (o.rows i s.store))
      (s'.beside m (o.results i) (o.rows i s'.store)) where
  unwritten := hs.unwritten.found ho m i
  bindings := hs.bindings.withResults_both _ _
  bindings' := hs.bindings'.withResults_both _ _
  affected := hs.affected
  store := by
    simp only [RunState.beside, ho.withRows_eq hs.unwritten]
    nth_rewrite 1 [hs.store]
    rw [Store.change_withRows hm]
    refine Store.change_congr ?_
    simp only [Gap.found, Table.refound, decide_eq_true_eq, and_true]

/-- A consumer goes on with the gap that there was. -/
theorem left (hm : ∀ j ∈ m.tables, j = n) (hg : Table.Behind k g.change) (hs : g.Meets n x s s')
    (hs₁ : (g.found n m (s.store.table n) results rows).Meets n x s₁ s₁') :
    g.Meets n x (s₁.beside m s.bindings s.store) (s₁'.beside m s'.bindings s'.store) where
  unwritten := hs.unwritten.left hs₁.unwritten m
  bindings := hs₁.bindings.withResults_back hs.bindings
  bindings' := hs₁.bindings'.withResults_back hs.bindings'
  affected := hs₁.affected
  store := by
    have hunread : (s₁.store.table n).unread = (s.store.table n).unread :=
      Store.table_of_unread (hs₁.unwritten.trans hs.unwritten.symm) n
    simp only [RunState.beside, hs.unwritten.withRows_eq hs₁.unwritten, hs₁.store]
    rw [Store.change_withRows hm, hs.table_eq hg]
    refine Store.change_congr ?_
    by_cases hn : n ∈ m.tables
    · simp only [Gap.found, Table.refound, hn, hunread, decide_true, and_self, if_true,
        hg.rows_of_unread hunread.symm]
    · simp only [Gap.found, Table.refound, hn, decide_false, Bool.false_eq_true, false_and, if_false]

end Meets

end Gap

/-! ## Streams past the writes -/

mutual

/-- Whether a stream over the tables of `x` gives the same tuples after writes to rows of table `n` up
to `k`, and only ever tuples of rows beyond `k`, each further than the one before. -/
def TupleStream.Past (n : Nat) (x : Store) (k : RowId) : TupleStream → Prop
  | .ended => True
  | .of pull => ∀ (g : Gap) (s s' : RunState), Table.Behind k g.change → g.Meets n x s s' →
    Reply.Past n x k g (pull s) (pull s')

def Reply.Past (n : Nat) (x : Store) (k : RowId) (g : Gap) : Reply → Reply → Prop
  | .row u s rest, r => k < u.row ∧ u.row ∈ (x.table n).rows.map (·.1) ∧
    TupleStream.Past n x u.row rest ∧ ∃ s', r = .row u s' rest ∧ g.Meets n x s s'
  | .finished s _, r => ∃ s' rest, r = .finished s' rest ∧ g.Meets n x s s'
  | .failed _ _, r => r.Fails
  | .crashed _ _ _, r => r.Fails

end

variable {n : Nat} {x : Store} {g : Gap} {j k : RowId} {t : TupleStream}

theorem Reply.Past.mono {r r' : Reply} (hjk : j ≤ k) (h : Reply.Past n x k g r r') :
    Reply.Past n x j g r r' := by
  cases r with
  | row u s rest =>
    obtain ⟨hk, hrest⟩ := h
    exact ⟨Int.lt_of_le_of_lt hjk hk, hrest⟩
  | finished s rest => exact h
  | failed e s => exact h
  | crashed c s rest => exact h

theorem Reply.Fails.ahead {r : Reply} (h : r.Fails) (group : GroupId) (m : Commons) (o : Others)
    (s : RunState) : (r.ahead group m o s).Fails := by
  cases r with
  | row u s' rest => exact h.elim
  | finished s' rest => exact h.elim
  | failed e s' => exact trivial
  | crashed c s' rest => exact trivial

namespace TupleStream

theorem past_iff : t.Past n x k ↔ ∀ (g : Gap) (s s' : RunState), Table.Behind k g.change →
    g.Meets n x s s' → Reply.Past n x k g (t.pull s) (t.pull s') := by
  cases t with
  | ended => exact iff_of_true trivial fun g s s' _ hs => ⟨s', .ended, rfl, hs⟩
  | of pull => exact Iff.rfl

/-- How a step stays past the writes: it gives a tuple of the same row, and does so after all writes
to earlier rows. -/
def StepsPast {σ : Type} (n : Nat) (x : Store)
    (step : σ → Tuple → RunState → Verdict σ × RunState) : Prop :=
  ∀ (a : σ) (u : Tuple) (g : Gap) (s s' : RunState), Table.Behind (u.row - 1) g.change →
    g.Meets n x s s' → (g.bond n x).Judge (fun v => v.row = u.row) (step a u s) (step a u s')

theorem Past.transduce {σ : Type} {m : Transducer σ} (ready : σ → Bool)
    (hready : ∀ a, m.isReady a = .ok (ready a)) (hstep : StepsPast n x m.step) (t : TupleStream) :
    ∀ {k}, t.Past n x k → ∀ a, (t.transduce m a).Past n x k := by
  induction t using TupleStream.induct with
  | step t ih =>
    intro k h a
    apply past_iff.2
    intro g s s' hg hs
    rw [pull_transduce (hready a), pull_transduce (hready a)]
    cases ready a with
    | false => exact ⟨s', .ended, rfl, hs⟩
    | true =>
      have hpull := past_iff.1 h g s s' hg hs
      have rests := ih s
      simp only [if_true]
      generalize t.pull s = r at hpull rests
      generalize t.pull s' = r' at hpull
      cases r with
      | failed e s₁ => exact Reply.Fails.transduce hpull m a
      | crashed c s₁ rest => exact Reply.Fails.transduce hpull m a
      | finished s₁ rest =>
        obtain ⟨s₁', rest', rfl, hs₁⟩ := hpull
        exact ⟨s₁', _, rfl, hs₁⟩
      | row u s₁ rest =>
        obtain ⟨hk, hmem, hrest, s₁', rfl, hs₁⟩ := hpull
        have hj := hstep a u g s₁ s₁' (hg.mono (Int.le_sub_one_of_lt hk)) hs₁
        simp only [Reply.transduce]
        generalize m.step a u s₁ = v at hj
        generalize m.step a u s₁' = v' at hj
        cases hj with
        | @emit v next s₂ s₂' hv hs₂ =>
          have hnext := rests u s₁ rest rfl hrest next
          exact ⟨hv.symm ▸ hk, hv.symm ▸ hmem, hv.symm ▸ hnext, s₂', rfl, hs₂⟩
        | @drop next s₂ s₂' hs₂ =>
          have hnext := past_iff.1 (rests u s₁ rest rfl hrest next) g s₂ s₂'
            (hg.mono (Int.le_of_lt hk)) hs₂
          exact hnext.mono (Int.le_of_lt hk)
        | @fail f s₂ s₂' hs₂ =>
          have hfails := Reply.ofFailure_fails f s₂' (rest.transduce m a)
          cases f <;> exact hfails

/-! ### Sources and steps -/

theorem Past.ofCursor {h : TableHandle} (hn : h.number = n) (pulls : Nat) {c : Cursor}
    (hc : c.after = some k) : (TupleStream.ofCursor h pulls c).Past n x k := by
  induction pulls generalizing c k with
  | zero => exact trivial
  | succ pulls ih =>
    intro g s s' hg hs
    obtain ⟨f, hf, hsame, hset⟩ := hs.seen hg h
    simp only [hsame, hf.next? hc]
    cases hnext : c.next? (s.table h) with
    | none => exact ⟨s', _, rfl, hs⟩
    | some found =>
      obtain ⟨row, hrow, rfl⟩ := Option.map_eq_some_iff.1 hnext
      have hcovers := List.find?_some (p := fun row : RowId × List Value => c.covers row.1) hrow
      have hk : k < row.1 := by
        rw [Cursor.covers, hc] at hcovers
        exact of_decide_eq_true (Bool.and_eq_true_iff.1 hcovers).1
      have htable : (s.table h).rows = (x.table n).rows :=
        hn ▸ Table.rows_of_unread (Store.table_of_unread hs.unwritten h.number)
      refine ⟨hk, ?_, ih rfl, _, rfl, hset _ rfl⟩
      rw [← htable]
      exact List.mem_map_of_mem (List.mem_of_find?_eq_some hrow)

theorem Past.ahead {m : Commons} (hm : ∀ j ∈ m.tables, j = n) (group : GroupId) (t : TupleStream) :
    ∀ {k} {o : Others}, o.Follow x → t.Past n x k → (t.ahead group m o).Past n x k := by
  induction t using TupleStream.inductRests with
  | ended => exact fun _ _ => trivial
  | of pull ih =>
    intro k o ho h
    refine past_iff.2 fun g s s' hg hs => ?_
    have hpull := past_iff.1 h _ _ _ (hs.found_behind ho hg 0) (hs.found hm ho 0)
    have rests := ih (s.beside m (o.results 0) (o.rows 0 s.store))
    simp only [TupleStream.ahead, pull_of] at hpull ⊢
    generalize pull (s.beside m (o.results 0) (o.rows 0 s.store)) = r at hpull rests
    generalize pull (s'.beside m (o.results 0) (o.rows 0 s'.store)) = r' at hpull
    cases r with
    | row u s₁ rest =>
      obtain ⟨hk, hmem, hrest, s₁', rfl, hs₁⟩ := hpull
      exact ⟨hk, hmem, rests rest rfl ho.later hrest, _, rfl, hs.left hm hg hs₁⟩
    | finished s₁ rest =>
      obtain ⟨s₁', rest', rfl, hs₁⟩ := hpull
      exact ⟨_, _, rfl, hs.left hm hg hs₁⟩
    | failed e s₁ => exact Reply.Fails.ahead hpull group m o.later s'
    | crashed c s₁ rest => exact Reply.Fails.ahead hpull group m o.later s'

/-! ### Chains of operators -/

/-- Whether a stream is past the writes once its first tuple has been pulled. The first pull may read
the results of sub-queries, before anything has been written. -/
def Opens (n : Nat) (x : Store) (t : TupleStream) : Prop :=
  ∀ s u s' rest, s.Unwritten x → t.pull s = .row u s' rest →
    s'.Unwritten x ∧ u.row ∈ (x.table n).rows.map (·.1) ∧ rest.Past n x u.row

/-- A reply of a stream past the writes, where nothing has been written. -/
theorem Past.row (h : t.Past n x k) {s s' : RunState} {u : Tuple} {rest : TupleStream}
    (hs : s.Unwritten x) (hpull : t.pull s = .row u s' rest) :
    s'.Unwritten x ∧ u.row ∈ (x.table n).rows.map (·.1) ∧ rest.Past n x u.row := by
  have hreply := past_iff.1 h (.still s) s s (.id k) (Gap.still_meets n hs)
  rw [hpull] at hreply
  obtain ⟨-, hmem, hrest, s₁, _, hs₁⟩ := hreply
  exact ⟨hs₁.unwritten, hmem, hrest⟩

namespace Opens

theorem transduce {σ : Type} {m : Transducer σ} (ready : σ → Bool)
    (hready : ∀ a, m.isReady a = .ok (ready a)) (hstep : StepsPast n x m.step) (h : t.Opens n x)
    (a : σ) : (t.transduce m a).Opens n x := by
  intro s u s' rest hs hpull
  rw [pull_transduce (hready a)] at hpull
  cases hr : ready a with
  | false =>
    rw [hr] at hpull
    cases hpull
  | true =>
    simp only [hr, if_true] at hpull
    cases ht : t.pull s with
    | finished s₁ left =>
      rw [ht] at hpull
      cases hpull
    | failed e s₁ =>
      rw [ht] at hpull
      cases hpull
    | crashed c s₁ left =>
      rw [ht] at hpull
      cases hpull
    | row w s₁ left =>
      obtain ⟨hs₁, hmem, hleft⟩ := h s w s₁ left hs ht
      have hj := hstep a w (.still s₁) s₁ s₁ (.id _) (Gap.still_meets n hs₁)
      have hnext (next : σ) : (left.transduce m next).Past n x w.row :=
        Past.transduce ready hready hstep left hleft next
      rw [ht, Reply.transduce] at hpull
      generalize m.step a w s₁ = v at hj hpull
      obtain ⟨v, s₂⟩ := v
      cases v with
      | fail f => cases f <;> cases hpull
      | drop next =>
        cases hj with
        | drop hs₂ => exact (hnext next).row hs₂.unwritten hpull
      | emit v next =>
        cases hpull
        cases hj with
        | emit hv hs₂ =>
          rw [hv]
          exact ⟨hs₂.unwritten, hmem, hnext next⟩

theorem steady {σ : Type} {step : σ → Tuple → RunState → Verdict σ × RunState}
    (hstep : StepsPast n x step) (h : t.Opens n x) (a : σ) :
    (t.transduce (.steady step) a).Opens n x :=
  Opens.transduce (m := .steady step) (fun _ => true) (fun _ => rfl) hstep h a

theorem ofCursor {h : TableHandle} (hn : h.number = n) (pulls : Nat) (c : Cursor) :
    (TupleStream.ofCursor h pulls c).Opens n x := by
  intro s u s' rest hs hpull
  cases pulls with
  | zero => cases hpull
  | succ pulls =>
    simp only [TupleStream.ofCursor, pull_of] at hpull
    cases hnext : c.next? (s.table h) with
    | none =>
      rw [hnext] at hpull
      cases hpull
    | some found =>
      rw [hnext] at hpull
      cases hpull
      obtain ⟨row, hrow, rfl⟩ := Option.map_eq_some_iff.1 hnext
      have htable : (s.table h).rows = (x.table n).rows :=
        hn ▸ Table.rows_of_unread (Store.table_of_unread hs h.number)
      have hread : (s.setTable h { s.table h with reads := (s.table h).reads + 1 }).Unwritten x :=
        (RunState.lasting_unwritten x).read rfl hs
      refine ⟨hread, ?_, Past.ofCursor hn pulls rfl⟩
      rw [← htable]
      exact List.mem_map_of_mem (List.mem_of_find?_eq_some hrow)

theorem filter (p : Predicate) (h : t.Opens n x) : (t.filter p).Opens n x := by
  refine h.steady (fun _ u g s s' _ hs => ?_) _
  rw [hs.same.holds_eq u fun _ _ _ _ => trivial]
  cases p.holds s.bindings u with
  | error f => exact .fail hs
  | ok keep =>
    cases keep with
    | false => exact .drop (hs.count _)
    | true => exact .emit rfl (hs.count _)

theorem select (cs : List Column) (h : t.Opens n x) : (t.select cs).Opens n x := by
  refine h.steady (fun _ u g s s' _ hs => ?_) _
  have hstate : (g.bond n x).state s s' := hs
  exact .ofResult hstate fun v hv => .emit (Tuple.row_project (Crash.lifted_eq_ok.1 hv)) hstate

theorem apply (f : Function) (arguments : List Binding) (cs : List Column) (h : t.Opens n x) :
    (t.apply f arguments cs).Opens n x := by
  refine h.steady (fun _ u g s s' _ hs => ?_) _
  have hstate : (g.bond n x).state s s' := hs
  rw [hs.same.resolveEach_eq (some u) fun _ _ => trivial]
  exact .ofResult hstate fun v _ => .emit rfl hstate

theorem fetch (h : TableHandle) (wanted cs : List Column) (ht : t.Opens n x) :
    (t.fetch h wanted cs).Opens n x := by
  refine ht.steady (fun _ u g s s' hg hs => ?_) _
  have hstate : (g.bond n x).state s s' := hs
  cases (wanted.filterM fun c => return (← u.get? c).isNone : Except Crash (List Column)) with
  | error c => exact .fail hstate
  | ok missing =>
    cases missing with
    | nil =>
      exact .ofResult hstate fun v hv => .emit (Tuple.row_project (Crash.lifted_eq_ok.1 hv)) hstate
    | cons c rest =>
      -- the tuple's own row has not been written yet
      obtain ⟨f, hf, hsame, hset⟩ := hs.seen hg h
      have hread := hf.read (Int.sub_one_lt_of_le (Int.le_refl u.row)) (s.table h) (c :: rest)
      simp only [hsame, hread]
      cases hfound : (s.table h).read u.row (c :: rest) with
      | error e => exact .fail hstate
      | ok found =>
        obtain ⟨found, table⟩ := found
        have hstate₁ : (g.bond n x).state (s.setTable h table) (s'.setTable h (f table)) :=
          hset table (Table.unread_read hfound)
        cases found with
        | none => exact .drop hstate₁
        | some w =>
          exact .ofResult hstate₁ fun v hv => .emit (row_complete (Crash.lifted_eq_ok.1 hv)) hstate₁

theorem ahead {m : Commons} (hm : ∀ j ∈ m.tables, j = n) (group : GroupId) {o : Others}
    (ho : o.Follow x) (h : t.Opens n x) : (t.ahead group m o).Opens n x := by
  intro s u s' rest hs hpull
  cases t with
  | ended => cases hpull
  | of pull =>
    simp only [TupleStream.ahead, pull_of] at hpull
    have hopens := h (s.beside m (o.results 0) (o.rows 0 s.store))
    rw [pull_of] at hopens
    generalize pull (s.beside m (o.results 0) (o.rows 0 s.store)) = r at hpull hopens
    cases r with
    | row v s₁ left =>
      cases hpull
      obtain ⟨hs₁, hmem, hleft⟩ := hopens u s₁ left (RunState.Unwritten.found hs ho m 0) rfl
      exact ⟨RunState.Unwritten.left hs hs₁ m, hmem, hleft.ahead hm group left ho.later⟩
    | finished s₁ left => cases hpull
    | failed e s₁ => cases hpull
    | crashed c s₁ left => cases hpull

theorem limit (bounds : RowLimit) (h : t.Opens n x) : (t.limit bounds).Opens n x := by
  refine h.transduce (fun left => left != (0, 0)) (fun _ => rfl) (fun left u g s s' _ hs => ?_) _
  obtain ⟨skip, room⟩ := left
  by_cases hskip : 0 < skip
  · simp only [hskip, if_true]
    exact .drop hs
  · simp only [hskip, if_false]
    exact .emit rfl hs

theorem retrying {prepare : List TupleStream → RunState → Attempt TupleStream} (times : Nat)
    {inputs : List TupleStream}
    (h : ∀ s v, s.Unwritten x → (prepare inputs s).result = .ok v →
      (prepare inputs s).state.Unwritten x ∧ v.Opens n x) :
    (TupleStream.retrying prepare times inputs).Opens n x := by
  intro s u s' rest hs hpull
  cases times with
  | zero => cases hpull
  | succ times =>
    rw [pull_retrying] at hpull
    cases hresult : (prepare inputs s).result with
    | error f =>
      rw [hresult] at hpull
      cases f <;> cases hpull
    | ok v =>
      rw [hresult] at hpull
      obtain ⟨hprepared, hv⟩ := h s v hs hresult
      exact hv _ u s' rest hprepared hpull

/-- Sub-queries are read before anything has been written. -/
theorem subselect {lenient : Bool} {sees : Groups} (p : Predicate) (groups : List GroupId)
    {others others' : List TupleStream} (h : t.Opens n x)
    (hothers : List.Forall₂
      (Sim ((Bond.seeing lenient sees).within (RunState.Unwritten x)) fun _ => True) others others') :
    (TupleStream.subselect p groups (t :: others)).Opens n x := by
  refine retrying _ fun s v hs hv => ?_
  obtain ⟨_, hread, rfl⟩ := Except.map_eq_ok.1 hv
  refine ⟨?_, h.filter p⟩
  have hB := (Bond.seeing_faithfulTo lenient sees).within (RunState.lasting_unwritten x)
  have hstart : ((Bond.seeing lenient sees).within (RunState.Unwritten x)).state s s :=
    ⟨⟨rfl, rfl, .of_eq rfl⟩, hs, hs⟩
  change (bindSubqueries p (groups.zip others) s).state.Unwritten x
  change (bindSubqueries p (groups.zip others) s).result = .ok _ at hread
  have hagree : ((Bond.seeing lenient sees).within (RunState.Unwritten x)).Agree (fun _ _ => True)
      (bindSubqueries p (groups.zip others) s).outcome
      (bindSubqueries p (groups.zip others') s).outcome := Sim.bindSubqueries hB p hothers hstart
  rw [Attempt.outcome, hread] at hagree
  generalize (bindSubqueries p (groups.zip others') s).outcome = o at hagree
  cases hagree with
  | ok _ hs' => exact hs'.2.1

end Opens

end TupleStream

/-! ## Runs -/

def Gap.after (g : Gap) (writes : Nat) (f : Table → Table) : Gap :=
  { g with change := f, writes := g.writes + writes }

/-- What a run that also writes comes to next to one that only reads: writing for the tuples of the
latter makes up for what lies between them. -/
def Gap.Closes (g : Gap) (w : RowWrite) (h : TableHandle) (x : Store) (r r' : Run) : Prop :=
  r.ending = .finished ∧ ∃ f, (g.after r.rows.length f).Meets h.number x r.state r'.state ∧
    ∀ y, g.Meets h.number x r.state y →
      ∃ z, w.applyAll h r.rows y = (.ok (), z) ∧ (g.after r.rows.length f).Meets h.number x r.state z

theorem Gap.Closes.finished {w : RowWrite} {h : TableHandle} {s s' : RunState}
    (hs : g.Meets h.number x s s') : g.Closes w h x ⟨[], .finished, s⟩ ⟨[], .finished, s'⟩ :=
  ⟨rfl, g.change, hs, fun y hy => ⟨y, rfl, hy⟩⟩

namespace TupleStream

variable {w : RowWrite} {h : TableHandle}

theorem run_writeEach_row {write : Tuple → RunState → Outcome Unit} {u : Tuple} {s s' : RunState}
    {rest : TupleStream} (hpull : t.pull s = .row u s' rest) : (t.writeEach write).run s =
      match write u s' with
      | (.ok (), s₁) => (rest.writeEach write).run s₁
      | (.error f, s₁) => (Reply.ofFailure f s₁ (rest.writeEach write)).run := by
  rw [run_eq, writeEach, Transducer.stateless, pull_steady, hpull]
  simp only [Reply.transduce, Transducer.steady]
  rcases write u s' with ⟨f | _, s₁⟩
  · rfl
  · exact (run_eq _ _).symm

/-- Both runs are given a tuple, and the second one writes for it. -/
theorem closes_row {u : Tuple} {s₀ s s₀' s' : RunState} {rest : TupleStream}
    (hpull : t.pull s₀ = .row u s rest) (hpull' : t.pull s₀' = .row u s' rest)
    (hg : Table.Behind k g.change) (hs : g.Meets h.number x s s') (hk : k < u.row)
    (hu : u.row ∈ (x.table h.number).rows.map (·.1))
    (hrest : ∀ (g : Gap) s s', Table.Behind u.row g.change → g.Meets h.number x s s' →
      ((rest.writeEach (w.apply h)).run s').ending = .finished →
        g.Closes w h x (rest.run s) ((rest.writeEach (w.apply h)).run s'))
    (hfinished : ((t.writeEach (w.apply h)).run s₀').ending = .finished) :
    g.Closes w h x (t.run s₀) ((t.writeEach (w.apply h)).run s₀') := by
  rw [run_writeEach_row hpull'] at hfinished ⊢
  rw [t.run_eq, hpull]
  cases hok : w.apply h u s' with
  | mk result s₁ =>
    rw [hok] at hfinished
    cases result with
    | error f => cases f <;> cases hfinished
    | ok _ =>
      obtain ⟨f, hf, hwrite⟩ := hs.apply hg hk hu hok
      obtain ⟨y, hy, hmeets⟩ := hwrite s s' hs
      rw [hok] at hy
      cases hy
      have hbehind : Table.Behind u.row (g.write f).change := hf.comp (hg.mono (Int.le_of_lt hk))
      have hcounted := hmeets.recount (.count s .pull) (.refl s₁)
      obtain ⟨hending, f', hclosed, hall⟩ := hrest _ _ _ hbehind hcounted hfinished
      have hafter : (g.write f).after (rest.run (s.count .pull)).rows.length f' =
          g.after (Reply.row u s rest).run.rows.length f' :=
        congrArg (Gap.mk g.bindings f') (Nat.add_right_comm g.writes 1 _)
      rw [hafter] at hclosed hall
      refine ⟨hending, f', hclosed, fun y hy => ?_⟩
      obtain ⟨y₁, hy₁, hmeets₁⟩ := hwrite _ y hy
      obtain ⟨z, hz, hmeets₂⟩ := hall y₁ hmeets₁
      refine ⟨z, ?_, hmeets₂⟩
      change w.applyAll h (u :: (rest.run (s.count .pull)).rows) y = (.ok (), z)
      rw [RowWrite.applyAll, hy₁]
      exact hz

theorem run_writeEach_finished {write : Tuple → RunState → Outcome Unit} {s s' : RunState}
    {rest : TupleStream} (hpull : t.pull s = .finished s' rest) :
    (t.writeEach write).run s = ⟨[], .finished, s'.count .pull⟩ := by
  rw [run_eq, writeEach, Transducer.stateless, pull_steady, hpull]
  rfl

theorem run_writeEach_fails {write : Tuple → RunState → Outcome Unit} {s : RunState}
    (hpull : (t.pull s).Fails) : ((t.writeEach write).run s).ending ≠ .finished := by
  rw [run_eq, writeEach, Transducer.stateless, pull_steady]
  generalize t.pull s = r at hpull
  cases r with
  | row u s' rest => exact hpull.elim
  | finished s' rest => exact hpull.elim
  | failed e s' => exact fun h => nomatch h
  | crashed c s' rest => exact fun h => nomatch h

theorem Past.closes (t : TupleStream) : ∀ {k} {g : Gap} {s s' : RunState}, t.Past h.number x k →
    Table.Behind k g.change → g.Meets h.number x s s' →
    ((t.writeEach (w.apply h)).run s').ending = .finished →
      g.Closes w h x (t.run s) ((t.writeEach (w.apply h)).run s') := by
  induction t using TupleStream.induct with
  | step t ih =>
    intro k g s s' ht hg hs hfinished
    have hreply := past_iff.1 ht g s s' hg hs
    have rests := ih s
    cases hpull : t.pull s with
    | failed e s₁ =>
      rw [hpull] at hreply
      exact absurd hfinished (run_writeEach_fails hreply)
    | crashed c s₁ rest =>
      rw [hpull] at hreply
      exact absurd hfinished (run_writeEach_fails hreply)
    | finished s₁ rest =>
      rw [hpull] at hreply
      obtain ⟨s₁', rest', hpull', hs₁⟩ := hreply
      rw [run_writeEach_finished hpull', t.run_eq, hpull]
      exact .finished (hs₁.count .pull)
    | row u s₁ rest =>
      rw [hpull] at hreply
      obtain ⟨hk, hu, hrest, s₁', hpull', hs₁⟩ := hreply
      refine closes_row hpull hpull' hg hs₁ hk hu (fun g s s' hg hs => ?_) hfinished
      exact rests u s₁ rest hpull hrest hg hs

theorem Opens.closes {s : RunState} (ht : t.Opens h.number x) (hs : s.Unwritten x)
    (hfinished : ((t.writeEach (w.apply h)).run s).ending = .finished) :
    ∃ s₁ y, (Gap.still s₁).Closes w h y (t.run s) ((t.writeEach (w.apply h)).run s) := by
  cases hpull : t.pull s with
  | failed e s₁ =>
    have hfails : (t.pull s).Fails := hpull ▸ trivial
    exact absurd hfinished (run_writeEach_fails hfails)
  | crashed c s₁ rest =>
    have hfails : (t.pull s).Fails := hpull ▸ trivial
    exact absurd hfinished (run_writeEach_fails hfails)
  | finished s₁ rest =>
    rw [run_writeEach_finished hpull, t.run_eq, hpull]
    exact ⟨_, s₁.store, .finished (Gap.still_meets (s := s₁.count .pull) h.number rfl)⟩
  | row u s₁ rest =>
    obtain ⟨hs₁, hu, hrest⟩ := ht s u s₁ rest hs hpull
    refine ⟨s₁, x, closes_row hpull hpull (.id (u.row - 1)) (Gap.still_meets h.number hs₁) ?_ hu ?_
      hfinished⟩
    · exact Int.sub_one_lt_of_le (Int.le_refl u.row)
    · intro g s s' hg hs
      exact Past.closes rest hrest hg hs

/-- Writing for every tuple of a stream as it is pulled comes to what writing for all tuples at the
end comes to. -/
theorem Opens.run {s : RunState} (ht : t.Opens h.number x) (hs : s.Unwritten x)
    (hfinished : ((t.writeEach (w.apply h)).run s).ending = .finished) :
    (t.run s).ending = .finished ∧ ((t.writeEach (w.apply h)).run s).state.affected =
        (t.run s).state.affected + (t.run s).rows.length ∧
      ∀ y, y.AgreeOn (fun _ => True) (t.run s).state →
        ∃ z, w.applyAll h (t.run s).rows y = (.ok (), z) ∧
          ((t.writeEach (w.apply h)).run s).state.store = z.store := by
  obtain ⟨s₁, y, hending, f, hmeets, hall⟩ := ht.closes hs hfinished
  refine ⟨hending, ?_, fun y' hy' => ?_⟩
  · have hcount := hmeets.affected
    rw [hcount, Gap.after, Gap.still, Nat.zero_add]
  · have hsame : (Gap.still s₁).Meets h.number y (t.run s).state y' :=
      ⟨hmeets.unwritten, hmeets.bindings, hy'.bindings.trans hmeets.bindings,
        hy'.store.trans (Store.change_id _ _).symm, hy'.affected⟩
    obtain ⟨z, hz, hclosed⟩ := hall _ hsame
    exact ⟨z, hz, hmeets.store.trans hclosed.store.symm⟩

end TupleStream

/-! ## Chains over a live scan -/

namespace RowWrite

/-- Over a plan that only reads, a sink changes its own table. -/
theorem written_eq (w : RowWrite) (h : TableHandle) {group : GroupId} {input : PhysicalPlan}
    (hreads : input.ReadsOnly) :
    ∀ j ∈ PhysicalPlan.written (.node group (w.operator h) [input]), j = h.number := by
  intro j hj
  obtain ⟨u, hu, hj⟩ := List.mem_flatMap.1 hj
  obtain ⟨hu, hwrites⟩ := List.mem_filter.1 hu
  rcases PhysicalPlan.mem_subtrees_node.1 hu with rfl | ⟨c, hc, hbelow⟩
  · cases w with
    | update values => exact List.mem_singleton.1 hj
    | delete => exact List.mem_singleton.1 hj
  · obtain rfl := List.mem_singleton.1 hc
    rw [hreads u hbelow] at hwrites
    cases hwrites

end RowWrite

namespace PhysicalPlan

/-- A chain of operators that work tuple by tuple on a scan of a whole table. All of them may be of any
groups, and sub-queries may read what they like. -/
inductive LiveChain (n : Nat) : PhysicalPlan → Prop
  | scan {group h cs} : h.number = n → h.faults.scanFailure = none →
    LiveChain n (.node group (.scan h cs 0 1) [])
  | filter {group p input} : LiveChain n input → LiveChain n (.node group (.filter p) [input])
  | subselect {group p input subqueries} : LiveChain n input → (∀ u ∈ subqueries, ReadsOnly u) →
    LiveChain n (.node group (.subselect p) (input :: subqueries))
  | function {group f arguments out input} : LiveChain n input →
    LiveChain n (.node group (.function f arguments out) [input])
  | fetch {group h cs input} : LiveChain n input → LiveChain n (.node group (.fetch h cs) [input])
  | select {group cs input} : LiveChain n input →
    LiveChain n (.node group (.projection (.select cs)) [input])
  | limit {group bounds input} : LiveChain n input →
    LiveChain n (.node group (.limit bounds) [input])

namespace LiveChain

variable {n : Nat} {t : PhysicalPlan}

theorem readsOnly (h : LiveChain n t) : t.ReadsOnly := by
  have hone {group : GroupId} {op : Operator} {input : PhysicalPlan} (hop : op.writes = false)
      (hinput : input.ReadsOnly) : ReadsOnly (.node group op [input]) :=
    every_node.2 ⟨hop, List.forall_mem_singleton.2 hinput⟩
  induction h with
  | scan _ _ => exact every_node.2 ⟨rfl, fun u hu => nomatch hu⟩
  | filter _ ih => exact hone rfl ih
  | subselect _ hsubs ih => exact every_node.2 ⟨rfl, List.forall_mem_cons.2 ⟨ih, hsubs⟩⟩
  | function _ ih => exact hone rfl ih
  | fetch _ ih => exact hone rfl ih
  | select _ ih => exact hone rfl ih
  | limit _ ih => exact hone rfl ih

end LiveChain

section

variable {plan : PhysicalPlan} {n : Nat} {limits : RunLimits} {s : RunState}
  (hresults : 0 < limits.maxWorkers → plan.ResultsApart) (hwritten : ∀ j ∈ plan.written, j = n)
include hwritten

theorem Connects.opens {consumer : GroupId} {c : PhysicalPlan} {u w : TupleStream}
    (hu : u.Opens n s.store) (hw : Connects limits s plan consumer c u w) : w.Opens n s.store := by
  rcases hw with rfl | ⟨_, _, o, ho, rfl⟩
  · exact hu
  · exact hu.ahead (fun j hj => hwritten j (List.mem_of_mem_filter hj)) c.group ho

/-- A node over one input opens if the input does. -/
theorem Schedules.opens_single {group : GroupId} {op : Operator} {input : PhysicalPlan}
    {u v : TupleStream} (hu : Schedules limits s plan (.node group op [input]) u)
    (hv : inline (limits.canSpill || false) s (.node group op [input]) = .ok v)
    (hinput : ∀ {u v}, Schedules limits s plan input u →
      input.inline (limits.canSpill || false) s = .ok v → u.Opens n s.store)
    (hop : ∀ {cs groups w u}, w.Opens n s.store →
      Lowering.stream limits s op cs groups [w] = .ok u → u.Opens n s.store) :
    u.Opens n s.store := by
  obtain ⟨u₀, w, hu₀, hw, hu⟩ := hu.of_single
  rw [inline_single] at hv
  obtain ⟨v₀, hv₀, -⟩ := Except.bind_eq_ok.1 hv
  exact hop (hw.opens hwritten (hinput hu₀ hv₀)) hu

include hresults

/-- Whichever inputs have workers and whenever these pull, the stream of a chain is past the writes for
the tuples that it has given. -/
theorem LiveChain.opens {t : PhysicalPlan} (h : LiveChain n t) (ht : t ∈ plan.subtrees) :
    ∀ {u v}, Schedules limits s plan t u → t.inline (limits.canSpill || false) s = .ok v →
      u.Opens n s.store := by
  have hfirst {group : GroupId} {op : Operator} {input : PhysicalPlan} {others : List PhysicalPlan}
      (hnode : .node group op (input :: others) ∈ plan.subtrees) : input ∈ plan.subtrees :=
    subtrees_subset hnode input (mem_subtrees_of_input List.mem_cons_self)
  induction h with
  | scan hn hfaults =>
    intro u v hu hv
    obtain ⟨us, hus, hu⟩ := schedules_node.1 hu
    simp only [Lowering.stream, TupleStream.scan, hfaults] at hu
    split at hu
    · cases hu
    · cases hu
      exact .ofCursor hn _ _
  | @subselect group p input subqueries _ hsubs ih =>
    intro u v hu hv
    obtain ⟨us, hus, hu⟩ := schedules_node.1 hu
    obtain ⟨w, ws, ⟨u₀, hu₀, hw⟩, hws, rfl⟩ := List.forall₂_cons_left_iff.1 hus
    rw [inline_node] at hv
    obtain ⟨vs, hvs, -⟩ := Except.bind_eq_ok.1 hv
    obtain ⟨v₀, rest, hv₀, hrest, rfl⟩ :=
      List.forall₂_cons_left_iff.1 (Except.mapM_eq_ok.1 hvs)
    have hothers : List.Forall₂ (TupleStream.Sim ((Bond.seeing false fun _ => True).within
        (RunState.Unwritten s.store)) fun _ => True) ws rest := by
      refine forall₂_meet hws hrest fun d hd w v hw hv => ?_
      obtain ⟨u, hu, hw⟩ := hw
      exact hu.input_sim hresults ht (List.mem_cons_of_mem _ hd) (hsubs d hd) hw hv
    cases hu
    exact (hw.opens hwritten (ih (hfirst ht) hu₀ hv₀)).subselect p _ hothers
  | filter _ ih =>
    intro u v hu hv
    refine hu.opens_single hwritten hv (ih (hfirst ht)) fun hw hu => ?_
    cases hu
    exact hw.filter _
  | function _ ih =>
    intro u v hu hv
    refine hu.opens_single hwritten hv (ih (hfirst ht)) fun hw hu => ?_
    cases hu
    exact hw.apply _ _ _
  | fetch _ ih =>
    intro u v hu hv
    refine hu.opens_single hwritten hv (ih (hfirst ht)) fun hw hu => ?_
    cases hu
    exact hw.fetch _ _ _
  | select _ ih =>
    intro u v hu hv
    refine hu.opens_single hwritten hv (ih (hfirst ht)) fun hw hu => ?_
    cases hu
    exact hw.select _
  | limit _ ih =>
    intro u v hu hv
    refine hu.opens_single hwritten hv (ih (hfirst ht)) fun hw hu => ?_
    cases hu
    exact hw.limit _

end

section

variable {limits : RunLimits} {q : QueryContext} {e : EngineState}

end

/-! ### Numbers that are no less than the least -/

namespace NoLess

def column : Column := ⟨"t.x", .long, false⟩

def least : Column := ⟨"min(t.x)", .long, true⟩

def table (x y : Int64) (reads : Nat) : Table :=
  ⟨"t", [column], [(0, [.long x]), (1, [.long y])], 2, [], reads⟩

def engine : EngineState := ⟨⟨[table 2 1 0]⟩, .empty⟩

def handle : TableHandle := engine.store.handle 0

/-- A query with the literal 0. -/
def query : QueryContext := ⟨.none, .standard, ⟨[some (.long 0)], []⟩, 0, false⟩

def limits : RunLimits := ⟨2, 0, true⟩

def scan (group : GroupId) : PhysicalPlan := .node group (.scan handle [column] 0 1) []

def noLess : Predicate :=
  .atom (.relation .greaterEqual (.column column) (.subquery 1 least)) false

def input : PhysicalPlan :=
  .node 0 (.limit ⟨0, 2⟩)
    [.node 0 (.subselect noLess) [scan 2, .node 1 (.projection (.min column)) [scan 1]]]

/-- What becomes of the numbers. -/
def zero : RowWrite := .update [(column, .literal 0 (some .long))]

def plan : PhysicalPlan := .node 0 (zero.operator handle) [input]

end NoLess

end PhysicalPlan

end QueryEngine
