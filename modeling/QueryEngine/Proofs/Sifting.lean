import QueryEngine.Proofs.Chains
import QueryEngine.Proofs.Gathering

/-!
# Chains row by row

While nothing writes and no sub-query is bound, a chain of operators on single tuples judges every
row by itself: it emits a tuple, drops the row or fails. A chain and each of its parts are streams
that judge their rows one after another, and all by the same judge.
-/

set_option autoImplicit false

namespace QueryEngine

/-! ## States that stay as they are -/

/-- Whether a state has the tables and the late-bound values of another one. -/
structure RunState.Still (s₀ s : RunState) : Prop where
  store : s.store.unread = s₀.store.unread
  bindings : s.bindings = s₀.bindings

/-- Runs in states with the tables and the late-bound values of one state. -/
def Bond.still (s₀ : RunState) : Bond :=
  ⟨fun s s' => s₀.Still s ∧ s₀.Still s', fun _ => False, False⟩

namespace RunState.Still

variable {s₀ s : RunState}

theorem refl (s₀ : RunState) : s₀.Still s₀ := ⟨rfl, rfl⟩

theorem count (h : s₀.Still s) (item : ProfileItem) : s₀.Still (s.count item) := ⟨h.store, h.bindings⟩

theorem recount {s' : RunState} (h : s₀.Still s) (hs : s.Recounted s') : s₀.Still s' := by
  obtain ⟨p, rfl⟩ := hs
  exact ⟨h.store, h.bindings⟩

theorem setTable (h : s₀.Still s) {t : TableHandle} {x : Table} (hx : x.unread = (s.table t).unread) :
    s₀.Still (s.setTable t x) :=
  ⟨(Store.unread_setTable hx).trans h.store, h.bindings⟩

theorem table_unread (h : s₀.Still s) (t : TableHandle) :
    (s.table t).unread = (s₀.table t).unread :=
  Store.table_of_unread h.store t.number

theorem rows (h : s₀.Still s) (t : TableHandle) : (s.table t).rows = (s₀.table t).rows :=
  Table.rows_of_unread (h.table_unread t)

end RunState.Still

theorem Bond.still_count {s₀ s s' : RunState} (item : ProfileItem) (hs : (Bond.still s₀).state s s') :
    (Bond.still s₀).state (s.count item) (s'.count item) :=
  ⟨hs.1.count item, hs.2.count item⟩

theorem Bond.still_counted (s₀ : RunState) : (Bond.still s₀).Counted :=
  ⟨still_count .pull, False.elim⟩

/-! ## Judging tuples -/

namespace Verdict

/-- The tuple that is emitted. -/
def tuple? : Verdict Unit → Option Tuple
  | emit u _ => some u
  | _ => none

/-- Judges the tuple that is emitted. -/
def andThen (v : Verdict Unit) (judge : Tuple → Verdict Unit) : Verdict Unit :=
  match v with
  | emit u _ => judge u
  | drop _ => drop ()
  | fail f => fail f

theorem andThen_eq_emit {v : Verdict Unit} {judge : Tuple → Verdict Unit} {w : Tuple} :
    v.andThen judge = emit w () ↔ ∃ u, v = emit u () ∧ judge u = emit w () := by
  cases v <;> simp [andThen]

end Verdict

namespace TupleStream

/-- What becomes of the tuples of a list that are judged one after another. -/
def sift (judge : Tuple → Verdict Unit) : List Tuple → TupleStream
  | [] => ended
  | u :: us => of fun s =>
    match judge u with
    | .emit v _ => .row v s (sift judge us)
    | .drop _ => (sift judge us).pull s
    | .fail f => .ofFailure f s ended

/-- Whether a judge fails on none of the tuples. -/
def Passes (judge : Tuple → Verdict Unit) (us : List Tuple) : Prop :=
  ∀ u ∈ us, ∀ f, judge u ≠ .fail f

/-- The tuples that are emitted. -/
def sifted (judge : Tuple → Verdict Unit) (us : List Tuple) : List Tuple :=
  us.filterMap fun u => (judge u).tuple?

section

variable {judge : Tuple → Verdict Unit} {us : List Tuple}

theorem mem_sifted {v : Tuple} : v ∈ sifted judge us ↔ ∃ u ∈ us, judge u = .emit v () := by
  rw [sifted, List.mem_filterMap]
  refine exists_congr fun u => and_congr_right fun _ => ?_
  cases judge u <;> simp [Verdict.tuple?]

/-- As long as no tuple fails, those are given that are emitted. -/
theorem lists_sift (h : Passes judge us) : (sift judge us).Lists (sifted judge us) := by
  unfold sifted
  induction us with
  | nil => exact fun s => ⟨_, rfl⟩
  | cons u us ih =>
    obtain ⟨hu, hus⟩ := List.forall_mem_cons.1 h
    cases hj : judge u with
    | emit v a =>
      rw [List.filterMap_cons_some (by rw [hj]; rfl)]
      exact fun s => ⟨_, by simp only [sift, pull_of, hj], ih hus⟩
    | drop a =>
      rw [List.filterMap_cons_none (by rw [hj]; rfl)]
      exact .of_pull fun s => ⟨_, ih hus, by simp only [sift, pull_of, hj]⟩
    | fail f => exact absurd hj (hu f)

theorem not_passes_tail {u : Tuple} (h : ¬ Passes judge (u :: us)) (hu : ∀ f, judge u ≠ .fail f) :
    ¬ Passes judge us :=
  fun hus => h (List.forall_mem_cons.2 ⟨hu, hus⟩)

/-- Reading tuples of which one fails comes to a failure, whatever is made of those before it. -/
theorem consume_sift_fails {σ : Type} (step : σ → Tuple → RunState → Outcome σ)
    (h : ¬ Passes judge us) (a : σ) (s : RunState) :
    ∃ f s', (sift judge us).consume step a s = (.error f, s') := by
  induction us generalizing a s with
  | nil => exact absurd (List.forall_mem_nil _) h
  | cons u us ih =>
    simp only [consume, drain_eq, sift, pull_of]
    cases hj : judge u with
    | emit v b =>
      simp only [Reply.drain]
      rcases step a v s with ⟨f | b, s'⟩
      · exact ⟨f, s', rfl⟩
      · exact ih (not_passes_tail h (by simp [hj])) b s'
    | drop b =>
      have hfails := ih (not_passes_tail h (by simp [hj])) a s
      simp only [consume, drain_eq] at hfails
      exact hfails
    | fail f => cases f <;> exact ⟨_, s, rfl⟩

theorem run_sift_fails (h : ¬ Passes judge us) (s : RunState) :
    ((sift judge us).run s).ending ≠ .finished := by
  induction us generalizing s with
  | nil => exact absurd (List.forall_mem_nil _) h
  | cons u us ih =>
    rw [TupleStream.run_eq]
    simp only [sift, pull_of]
    cases hj : judge u with
    | emit v b => exact ih (not_passes_tail h (by simp [hj])) (s.count .pull)
    | drop b =>
      have hfails := ih (not_passes_tail h (by simp [hj])) s
      rwa [TupleStream.run_eq] at hfails
    | fail f => cases f <;> exact nofun

end

namespace Sim

variable {s₀ : RunState}

/-- A cursor that may answer often enough gives the rows that it has ahead. -/
theorem ofCursor_sift (h : TableHandle) (pulls : Nat) {c : Cursor}
    (hrows : (s₀.table h).rows.Pairwise (·.1 < ·.1))
    (hpulls : (c.remaining (s₀.table h)).length ≤ pulls) :
    (TupleStream.ofCursor h pulls c).Sim (.still s₀) (fun _ => True)
      (sift (.emit · ()) (c.remaining (s₀.table h))) := by
  induction pulls generalizing c with
  | zero =>
    rw [List.eq_nil_of_length_eq_zero (Nat.le_zero.1 hpulls)]
    exact ended
  | succ pulls ih =>
    refine sim_iff.2 fun s s' hs => ?_
    rcases pull_ofCursor (hs.1.rows h) hrows pulls c with
      ⟨hnil, hpull⟩ | ⟨u, d, t, _, ht, hcons, hpull⟩
    · rw [hnil, hpull]
      exact .finished hs
    · rw [hcons, List.length_cons] at hpulls
      rw [hcons, hpull]
      exact .row trivial ⟨hs.1.setTable ht, hs.2⟩ (ih (Nat.le_of_succ_le_succ hpulls))

/-- A step that judges alike in all states judges the tuples that are emitted below. -/
theorem stateless_sift {step : Tuple → RunState → Verdict Unit × RunState}
    {judge after : Tuple → Verdict Unit}
    (hstep : ∀ u s, s₀.Still s → (step u s).1 = after u ∧ s₀.Still (step u s).2)
    {us : List Tuple} {t : TupleStream} (h : t.Sim (.still s₀) (fun _ => True) (sift judge us)) :
    (t.transduce (.stateless step) ()).Sim (.still s₀) (fun _ => True)
      (sift (fun u => (judge u).andThen after) us) := by
  have hstateless : (Transducer.steady fun _ : Unit => step).step () = step := rfl
  induction us generalizing t with
  | nil =>
    refine sim_iff.2 fun s s' hs => ?_
    rw [Transducer.stateless, pull_steady]
    have ha := h.answer hs
    change Bond.Answer _ _ _ _ (.finished s' .ended) at ha
    generalize t.pull s = r at ha
    cases ha with
    | finished hs₁ => exact .finished hs₁
    | excused he => exact he.elim
  | cons u us ih =>
    refine sim_iff.2 fun s s' hs => ?_
    have ha := h.answer hs
    simp only [sift, pull_of] at ha ⊢
    cases hj : judge u with
    | drop a =>
      have hrest : t.Sim (.still s₀) (fun _ => True) (sift judge us) := by
        refine sim_iff.2 fun s s' hs => ?_
        have ha := h.answer hs
        simpa only [sift, pull_of, hj] using ha
      exact (ih hrest).answer hs
    | fail f =>
      rw [hj] at ha
      rw [Transducer.stateless, pull_steady]
      generalize t.pull s = r at ha
      cases f with
      | error e =>
        change Bond.Answer _ _ _ _ (.failed e s') at ha
        cases ha with
        | failed hs₁ => exact .failed hs₁
        | excused he => exact he.elim
      | crashed c =>
        change Bond.Answer _ _ _ _ (.crashed c s' _) at ha
        cases ha with
        | crashed hs₁ => exact .crashed hs₁
        | lost hw _ => exact hw.elim
        | excused he => exact he.elim
    | emit v a =>
      rw [hj] at ha
      rw [Transducer.stateless, pull_steady]
      generalize t.pull s = r at ha
      cases ha with
      | excused he => exact he.elim
      | @row _ s₁ _ rest _ _ hs₁ hrest =>
        obtain ⟨hv, hs₂⟩ := hstep v s₁ hs₁.1
        simp only [Reply.transduce, hstateless, Verdict.andThen, ← hv]
        generalize step v s₁ = verdict at hs₂ ⊢
        obtain ⟨verdict, s₂⟩ := verdict
        cases verdict with
        | emit w b => exact .row trivial ⟨hs₂, hs₁.2⟩ (ih hrest)
        | drop b => exact (ih hrest).answer ⟨hs₂, hs₁.2⟩
        | fail f => exact .ofFailure (.same f) ⟨hs₂, hs₁.2⟩

end Sim

end TupleStream

/-! ## Operators on single tuples -/

/-- What an operator on single tuples does to each of them. What is emitted has the number of its row
and is laid out as the operator says. -/
structure Operator.Steps (op : Operator) (input : List Column)
    (step : Tuple → RunState → Verdict Unit × RunState) : Prop where
  stream : ∀ limits s groups t, Lowering.stream limits s op (op.columns input) groups [t] =
    .ok (t.transduce (.stateless step) ())
  still : ∀ {s₀ s} u, s₀.Still s → (step u s).1 = (step u s₀).1 ∧ s₀.Still (step u s).2
  keeps : ∀ {u s v}, (step u s).1 = .emit v () →
    v.row = u.row ∧ (u.Laid input → v.Laid (op.columns input))

theorem Verdict.ofResult_eq_emit {α : Type} {r : Except Failure α} {f : α → Tuple} {v : Tuple}
    (h : Verdict.ofResult r (fun a => .emit (f a) ()) = .emit v ()) : ∃ a, r = .ok a ∧ f a = v := by
  cases r with
  | error f => cases h
  | ok a =>
    cases h
    exact ⟨a, rfl, rfl⟩

namespace Operator

variable {input : List Column}

theorem exists_steps_filter (p : Predicate) : ∃ step, (filter p).Steps input step := by
  refine ⟨_, fun _ _ _ _ => rfl, fun {s₀ s} u hs => ?_, fun {u s v} hv => ?_⟩
  · simp only [hs.bindings]
    cases p.holds s₀.bindings u with
    | error f => exact ⟨rfl, hs⟩
    | ok keep => exact ⟨rfl, hs.count .filter⟩
  · cases hkeep : p.holds s.bindings u with
    | error f =>
      rw [hkeep] at hv
      cases hv
    | ok keep =>
      rw [hkeep] at hv
      cases keep with
      | false => cases hv
      | true =>
        cases hv
        exact ⟨rfl, id⟩

theorem exists_steps_function (f : Function) (arguments : List Binding) (out : Column) :
    ∃ step, (function f arguments out).Steps input step := by
  refine ⟨_, fun _ _ _ _ => rfl, fun {s₀ s} u hs => ?_, fun {u s v} hv => ?_⟩
  · simp only [hs.bindings]
    exact ⟨trivial, hs⟩
  · obtain ⟨x, _, rfl⟩ := Verdict.ofResult_eq_emit hv
    exact ⟨rfl, fun hu => Tuple.laid_layout.extend out hu⟩

theorem exists_steps_fetch (h : TableHandle) (wanted : List Column) :
    ∃ step, (fetch h wanted).Steps input step := by
  refine ⟨_, fun _ _ _ _ => rfl, fun {s₀ s} u hs => ?_, fun {u s v} hv => ?_⟩
  · cases hm : (wanted.filterM fun c => return (← u.get? c).isNone : Except Crash (List Column)) with
    | error c => exact ⟨rfl, hs⟩
    | ok missing =>
      cases missing with
      | nil => exact ⟨rfl, hs⟩
      | cons c rest =>
        rcases Table.read_of_unread (hs.table_unread h) u.row (c :: rest) with
          ⟨e, hr, hr'⟩ | ⟨found, x, x', hr, hr', hx, _⟩
        · simp only [hr, hr']
          exact ⟨trivial, hs⟩
        · simp only [hr, hr']
          cases found with
          | none => exact ⟨rfl, hs.setTable hx⟩
          | some found => exact ⟨rfl, hs.setTable hx⟩
  · split at hv
    · cases hv
    · obtain ⟨w, hw, rfl⟩ := Verdict.ofResult_eq_emit hv
      have hproject := Crash.lifted_eq_ok.1 hw
      exact ⟨Tuple.row_project hproject, fun _ => Tuple.laid_layout.project hproject⟩
    · split at hv
      · cases hv
      · cases hv
      · obtain ⟨w, hw, rfl⟩ := Verdict.ofResult_eq_emit hv
        have hcomplete := Crash.lifted_eq_ok.1 hw
        exact ⟨TupleStream.row_complete hcomplete, fun _ => Tuple.laid_layout.complete hcomplete⟩

theorem exists_steps_projection {p : Projection} (hp : p.isAggregate = false) :
    ∃ step, (projection p).Steps input step := by
  refine ⟨fun u s => (.ofResult (Crash.lifted (u.project p.columns)) (.emit · ()), s),
    fun _ _ _ t => ?_, fun {s₀ s} u hs => ⟨rfl, hs⟩, fun {u s v} hv => ?_⟩
  · change Except.ok (t.project p p.columns) = _
    rw [TupleStream.project, hp, if_neg Bool.false_ne_true]
    rfl
  · obtain ⟨w, hw, rfl⟩ := Verdict.ofResult_eq_emit hv
    have hproject := Crash.lifted_eq_ok.1 hw
    exact ⟨Tuple.row_project hproject, fun _ => Tuple.laid_layout.project hproject⟩

theorem exists_steps {op : Operator} (hop : op.isPerTuple = true) (input : List Column) :
    ∃ step, op.Steps input step := by
  cases op with
  | filter p => exact exists_steps_filter p
  | function f arguments out => exact exists_steps_function f arguments out
  | fetch h wanted => exact exists_steps_fetch h wanted
  | projection p => exact exists_steps_projection (by simpa [isPerTuple] using hop)
  | _ => cases hop

end Operator

/-! ## Chains -/

theorem TupleStream.scan_eq_ok {h : TableHandle} {s : Store} {cs : List Column} {i p : Nat}
    {t : TupleStream} (ht : scan h s cs i p = .ok t) :
    i < p ∧ ∃ places, (h.table s).positions cs = .ok places := by
  unfold scan at ht
  cases hscan : (h.table s).scan cs i p with
  | error f =>
    rw [hscan] at ht
    cases ht
  | ok cursor =>
    obtain ⟨hi, places, hplaces, _⟩ := Table.scan_eq_ok hscan
    exact ⟨hi, places, hplaces⟩

/-- Whether an operator can be set up does not depend on the streams of its inputs, but on their
number. A scan can be set up for every partition. -/
theorem Lowering.exists_stream_restrict {limits : RunLimits} {s : RunState} {op : Operator}
    {cs : List Column} {groups : List GroupId} {us vs : List TupleStream} {u : TupleStream}
    (hu : stream limits s op cs groups us = .ok u) (hlength : vs.length = us.length) {i p : Nat}
    (hi : i < p) (ds : List Column) (others : List GroupId) :
    ∃ v, stream limits s (op.restrict i p) ds others vs = .ok v := by
  have hsingle {f g : TupleStream → TupleStream} (hf : (single op us).map f = .ok u) :
      ∃ v, (single op vs).map g = .ok v := by
    have hne : vs ≠ [] := by
      rintro rfl
      rw [List.eq_nil_of_length_eq_zero hlength.symm] at hf
      cases hf
    rw [single, List.getLast?_eq_some_getLast hne]
    exact ⟨_, rfl⟩
  cases op with
  | scan h columns j n =>
    obtain ⟨_, places, hplaces⟩ := TupleStream.scan_eq_ok hu
    have hscan : (h.table s.store).scan columns i p = .ok ⟨columns, places, i, p, none⟩ := by
      rw [Table.scan, if_neg (by omega), hplaces]
      rfl
    change ∃ v, TupleStream.scan h s.store columns i p = .ok v
    rw [TupleStream.scan, hscan]
    cases h.faults.scanFailure with
    | none => exact ⟨_, rfl⟩
    | some fault => exact ⟨_, rfl⟩
  | sample h columns q seed => exact ⟨u, hu⟩
  | indexScan x columns q => exact ⟨u, hu⟩
  | filter q => exact hsingle hu
  | function f arguments out => exact hsingle hu
  | fetch h columns => exact hsingle hu
  | projection q => exact hsingle hu
  | sort order => exact hsingle hu
  | externalSort order chunk => exact hsingle hu
  | limitingSort order bounds => exact hsingle hu
  | limit bounds => exact hsingle hu
  | update h values => exact hsingle hu
  | delete h => exact hsingle hu
  | _ => exact ⟨_, rfl⟩

namespace PhysicalPlan

/-- Whether all scans read tables that never fail. -/
def OnTables (t : PhysicalPlan) : Prop :=
  ∀ u ∈ t.subtrees, ∀ h cs i n, u.op = .scan h cs i n → h.faults.scanFailure = none

/-- The parts of a plan can be set up if the plan can be. -/
theorem exists_inline_part {s : RunState} {canSpill : Bool} (t : PhysicalPlan) {i p : Nat}
    (hi : i < p) (g : GroupId) : ∀ {u}, t.inline canSpill s = .ok u →
      ∃ v, inline canSpill s (part t i p g) = .ok v := by
  induction t using PlanTree.induct with
  | node group op inputs ih =>
    intro u hu
    rw [inline_node] at hu
    obtain ⟨us, hus, hu⟩ := Except.bind_eq_ok.1 hu
    have hparts : ∀ t ∈ inputs.map fun t => part t i p g, ∃ v, inline canSpill s t = .ok v := by
      intro t ht
      obtain ⟨t, hmem, rfl⟩ := List.mem_map.1 ht
      obtain ⟨v, _, hv⟩ := exists_mem_of_forall₂ (Except.mapM_eq_ok.1 hus).flip hmem
      exact ih t hmem hv
    obtain ⟨vs, hvs⟩ := exists_forall₂ hparts
    have hlength : vs.length = us.length := by
      rw [← hvs.length_eq, List.length_map, Except.mapM_length hus]
    rw [part_node, inline_node, Except.mapM_eq_ok.2 hvs]
    exact Lowering.exists_stream_restrict hu hlength hi _ _

/-- Whether a chain and its parts are set up alike and judge their rows by one judge, which keeps
their numbers. -/
structure Sifts (s₀ : RunState) (canSpill : Bool) (t : PhysicalPlan) (h : TableHandle)
    (cs : List Column) (judge : Tuple → Verdict Unit) : Prop where
  whole : ∀ {u}, t.inline canSpill s₀ = .ok u →
    u.Sim (.still s₀) (fun _ => True) (.sift judge ((s₀.table h).slice cs 0 1))
  part : ∀ {u}, t.inline canSpill s₀ = .ok u → ∀ {i p}, i < p → ∀ g,
    ∃ v, inline canSpill s₀ (part t i p g) = .ok v ∧
      v.Sim (.still s₀) (fun _ => True) (.sift judge ((s₀.table h).slice cs i p))
  keeps : ∀ {u v}, judge u = .emit v () → v.row = u.row ∧ (u.Laid cs → v.Laid t.columns)

section

variable {s₀ : RunState} {canSpill : Bool} (hsound : ∀ m, (s₀.store.table m).Sound)
include hsound

theorem scan_sifts (group : GroupId) {h : TableHandle} (hfaults : h.faults.scanFailure = none)
    (cs : List Column) (i : Nat) (inputs : List PhysicalPlan) :
    Sifts s₀ canSpill (.node group (.scan h cs i 1) inputs) h cs (.emit · ()) := by
  have hcursor {places : List Nat} (hplaces : (s₀.table h).positions cs = .ok places) (i p : Nat) :
      (TupleStream.ofCursor h TupleStream.unbounded ⟨cs, places, i, p, none⟩).Sim (.still s₀)
        (fun _ => True) (.sift (.emit · ()) ((s₀.table h).slice cs i p)) := by
    rw [← Table.remaining_slice hplaces]
    refine .ofCursor_sift h _ (hsound h.number).ascending ?_
    refine Nat.le_trans (Cursor.remaining_length_le _ _) ?_
    exact Nat.le_trans (hsound h.number).length_le (by decide)
  have hscan {g : GroupId} {i p : Nat} {inputs : List PhysicalPlan} {u : TupleStream}
      (hu : inline canSpill s₀ (.node g (.scan h cs i p) inputs) = .ok u) :
      u.Sim (.still s₀) (fun _ => True) (.sift (.emit · ()) ((s₀.table h).slice cs i p)) := by
    rw [inline_node] at hu
    obtain ⟨_, _, hu⟩ := Except.bind_eq_ok.1 hu
    obtain ⟨hi, places, hplaces⟩ := TupleStream.scan_eq_ok hu
    cases hu.symm.trans (TupleStream.scan_partition hfaults hplaces hi)
    exact hcursor hplaces i p
  refine ⟨fun hu => ?_, fun {u} hu {j p} hj g => ?_, fun hv => ?_⟩
  · obtain rfl : i = 0 := by
      rw [inline_node] at hu
      obtain ⟨_, _, hu⟩ := Except.bind_eq_ok.1 hu
      exact Nat.lt_one_iff.1 (TupleStream.scan_lt hu)
    exact hscan hu
  · obtain ⟨v, hv⟩ := exists_inline_part _ hj g hu
    refine ⟨v, hv, ?_⟩
    rw [part_node] at hv
    exact hscan hv
  · cases hv
    exact ⟨rfl, id⟩

theorem exists_sifts (t : PhysicalPlan) (ht : t.isChain = true) (htables : t.OnTables) :
    ∃ h cs judge, t.Sifts s₀ canSpill h cs judge := by
  induction t, ht using isChain_induct with
  | scan group h cs i inputs =>
    have hfaults := htables _ (mem_subtrees_self _) h cs i 1 rfl
    exact ⟨h, cs, _, scan_sifts hsound group hfaults cs i inputs⟩
  | step group op input _ hop _ ih =>
    obtain ⟨h, cs, judge, hsifts⟩ :=
      ih ((forall_subtrees_node.1 htables).2 input (List.mem_singleton_self input))
    obtain ⟨step, hstep⟩ := Operator.exists_steps hop input.columns
    refine ⟨h, cs, fun u => (judge u).andThen fun v => (step v s₀).1, fun {u} hu => ?_,
      fun {u} hu {i p} hi g => ?_, fun {u v} hv => ?_⟩
    · rw [inline_single] at hu
      obtain ⟨v, hv, hu⟩ := Except.bind_eq_ok.1 hu
      rw [hstep.stream] at hu
      cases hu
      exact .stateless_sift (fun u s hs => hstep.still u hs) (hsifts.whole hv)
    · rw [inline_single] at hu
      obtain ⟨v, hv, _⟩ := Except.bind_eq_ok.1 hu
      obtain ⟨w, hw, hsim⟩ := hsifts.part hv hi g
      refine ⟨_, ?_, .stateless_sift (fun u s hs => hstep.still u hs) hsim⟩
      rw [part_step hop, inline_single, columns_part, hw]
      exact hstep.stream _ _ _ w
    · obtain ⟨w, hw, hv⟩ := Verdict.andThen_eq_emit.1 hv
      obtain ⟨hrow, hlaid⟩ := hsifts.keeps hw
      obtain ⟨hrow', hlaid'⟩ := hstep.keeps hv
      rw [columns_node]
      exact ⟨hrow'.trans hrow, fun hu => hlaid' (hlaid hu)⟩

end

end PhysicalPlan

end QueryEngine
