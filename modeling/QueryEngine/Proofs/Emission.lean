import QueryEngine.Proofs.Lowering
import QueryEngine.Proofs.Reading

/-!
# What streams emit

A stream that only reads emits a list of tuples, whatever counters and counted reads the states have
in which it is pulled. Between its pulls the results of some sub-queries may change (`others`), and
while it is pulled those of some sub-queries of its own (`own`).
-/

set_option autoImplicit false

namespace QueryEngine

/-- States with the same tables and slots, and the same results of all sub-queries but some. -/
structure RunState.SameBut (X : Groups) (s s' : RunState) : Prop where
  store : s.store.unread = s'.store.unread
  slots : s.bindings.slots = s'.bindings.slots
  subqueries : ∀ g, ¬ X g → s.bindings.subquery? g = s'.bindings.subquery? g

namespace RunState.SameBut

variable {X Y : Groups} {s s' s'' : RunState}

theorem refl (X : Groups) (s : RunState) : s.SameBut X s := ⟨rfl, rfl, fun _ _ => rfl⟩

theorem symm (h : s.SameBut X s') : s'.SameBut X s :=
  ⟨h.store.symm, h.slots.symm, fun g hg => (h.subqueries g hg).symm⟩

theorem trans (h : s.SameBut X s') (h' : s'.SameBut Y s'') :
    s.SameBut (fun g => X g ∨ Y g) s'' :=
  ⟨h.store.trans h'.store, h.slots.trans h'.slots, fun g hg =>
    (h.subqueries g fun hx => hg (.inl hx)).trans (h'.subqueries g fun hy => hg (.inr hy))⟩

theorem mono (hXY : ∀ g, X g → Y g) (h : s.SameBut X s') : s.SameBut Y s' :=
  ⟨h.store, h.slots, fun g hg => h.subqueries g fun hx => hg (hXY g hx)⟩

theorem transSame (h : s.SameBut X s') (h' : s'.SameBut X s'') : s.SameBut X s'' :=
  (h.trans h').mono fun _ hg => hg.elim id id

theorem recount (X : Groups) (h : s.Recounted s') : s'.SameBut X s := by
  obtain ⟨p, rfl⟩ := h
  exact ⟨rfl, rfl, fun _ _ => rfl⟩

theorem count (X : Groups) (s : RunState) (item : ProfileItem) : (s.count item).SameBut X s :=
  recount X (.count s item)

theorem setTable (X : Groups) (s : RunState) {h : TableHandle} {t : Table}
    (ht : t.unread = (s.table h).unread) : (s.setTable h t).SameBut X s :=
  ⟨Store.unread_setTable ht, rfl, fun _ _ => rfl⟩

theorem table_unread (h : s.SameBut X s') (t : TableHandle) :
    (s.table t).unread = (s'.table t).unread :=
  Store.table_of_unread h.store t.number

theorem rows (h : s.SameBut X s') (t : TableHandle) : (s.table t).rows = (s'.table t).rows :=
  Table.rows_of_unread (h.table_unread t)

end RunState.SameBut

/-- Whether a reply is an error or a crash. -/
def Reply.Fails : Reply → Prop
  | .failed _ _ => True
  | .crashed _ _ _ => True
  | _ => False

theorem Reply.ofFailure_fails (f : Failure) (s : RunState) (rest : TupleStream) :
    (Reply.ofFailure f s rest).Fails := by
  cases f <;> exact trivial

theorem Reply.Fails.exists_failure {r : Reply} (h : r.Fails) :
    ∃ f s rest, r = .ofFailure f s rest := by
  cases r with
  | row u s rest => exact h.elim
  | finished s rest => exact h.elim
  | failed e s => exact ⟨.error e, s, .ended, rfl⟩
  | crashed c s rest => exact ⟨.crashed c, s, rest, rfl⟩

theorem Reply.Fails.transduce {σ : Type} {r : Reply} (h : r.Fails) (m : Transducer σ) (a : σ) :
    (r.transduce m a).Fails := by
  obtain ⟨f, s, rest, rfl⟩ := h.exists_failure
  cases f <;> exact trivial

/-- Whether a reply in a state is the first of those that give a list of tuples. They end with the
end of the stream or, if not `complete`, with a failure. -/
def Reply.Emits (others own : Groups) (complete : Bool) : List Tuple → Reply → RunState → Prop
  | [], r, s => if complete then ∃ s' rest, r = .finished s' rest ∧ s'.SameBut own s else r.Fails
  | u :: us, r, s => ∃ s' rest, r = .row u s' rest ∧ s'.SameBut own s ∧
      ∀ s₁, s₁.SameBut others s' → Reply.Emits others own complete us (rest.pull s₁) s₁

/-- Whether a stream gives a list of tuples when it is pulled from a state on. -/
def TupleStream.Emits (others own : Groups) (complete : Bool) (us : List Tuple) (t : TupleStream)
    (s : RunState) : Prop :=
  ∀ s₁, s₁.SameBut others s → Reply.Emits others own complete us (t.pull s₁) s₁

section

variable {others own : Groups} {complete : Bool} {us : List Tuple}

theorem Reply.Emits.before {r : Reply} {s s' : RunState} (hs : s'.SameBut own s)
    (h : Reply.Emits others own complete us r s') : Reply.Emits others own complete us r s := by
  cases us with
  | nil =>
    cases complete with
    | false => exact h
    | true =>
      obtain ⟨s₁, rest, hr, hs₁⟩ := h
      exact ⟨s₁, rest, hr, hs₁.transSame hs⟩
  | cons u us =>
    obtain ⟨s₁, rest, hr, hs₁, hrest⟩ := h
    exact ⟨s₁, rest, hr, hs₁.transSame hs, hrest⟩

/-- What becomes of tuples that are judged one after another, until one fails. -/
def judged {σ : Type} (judge : σ → Tuple → Verdict σ) : σ → List Tuple → List Tuple × Bool
  | _, [] => ([], true)
  | a, u :: us =>
    match judge a u with
    | .emit v next => ((v :: (judged judge next us).1), (judged judge next us).2)
    | .drop next => judged judge next us
    | .fail _ => ([], false)

namespace TupleStream.Emits

theorem ended (s : RunState) : TupleStream.ended.Emits others own true [] s :=
  fun s₁ _ => ⟨s₁, .ended, rfl, .refl _ _⟩

theorem ofList (us : List Tuple) (s : RunState) :
    (TupleStream.ofList us).Emits others own true us s := by
  induction us generalizing s with
  | nil => exact ended s
  | cons u us ih => exact fun s₁ _ => ⟨s₁, _, rfl, .refl _ _, ih s₁⟩

theorem resume {t : TupleStream} {s s' : RunState} (hs : s'.SameBut others s)
    (h : t.Emits others own complete us s) : t.Emits others own complete us s' :=
  fun s₁ hs₁ => h s₁ (hs₁.transSame hs)

/-- The tuples of a transducer that judges alike in all states that the stream below can reach. -/
theorem steady {σ : Type} {step : σ → Tuple → RunState → Verdict σ × RunState}
    {judge : σ → Tuple → Verdict σ} {t : TupleStream} {s : RunState}
    (h : t.Emits others own complete us s)
    (hstep : ∀ a, ∀ u ∈ us, ∀ s₁, s₁.SameBut (fun g => others g ∨ own g) s →
      (step a u s₁).1 = judge a u ∧ (step a u s₁).2.SameBut (fun _ => False) s₁) (a : σ) :
    (t.transduce (.steady step) a).Emits others own (complete && (judged judge a us).2)
      (judged judge a us).1 s := by
  induction us generalizing t s a with
  | nil =>
    intro s₁ hs₁
    rw [pull_steady, judged, Bool.and_true]
    have hr := h s₁ hs₁
    cases complete with
    | false =>
      change (t.pull s₁).Fails at hr
      change ((t.pull s₁).transduce (.steady step) a).Fails
      generalize t.pull s₁ = r at hr
      cases r with
      | failed e s₂ => exact trivial
      | crashed c s₂ rest => exact trivial
      | row u s₂ rest => exact hr.elim
      | finished s₂ rest => exact hr.elim
    | true =>
      obtain ⟨s₂, rest, hr, hs₂⟩ := hr
      rw [hr]
      exact ⟨s₂, _, rfl, hs₂⟩
  | cons u us ih =>
    intro s₁ hs₁
    obtain ⟨s₂, rest, hr, hs₂, hrest⟩ := h s₁ hs₁
    have hsteady : (Transducer.steady step).step = step := rfl
    rw [pull_steady, hr, Reply.transduce, hsteady]
    have hs₂' : s₂.SameBut (fun g => others g ∨ own g) s :=
      (hs₂.trans hs₁).mono fun _ hg => hg.elim .inr .inl
    obtain ⟨hv, hs₃⟩ := hstep a u List.mem_cons_self s₂ hs₂'
    generalize step a u s₂ = verdict at hv hs₃
    obtain ⟨verdict, s₃⟩ := verdict
    simp only at hv hs₃
    subst hv
    have hown : s₃.SameBut own s₁ := (hs₃.mono fun _ hg => hg.elim).transSame hs₂
    have hrest' : rest.Emits others own complete us s₃ :=
      resume (hs₃.mono fun _ hg => hg.elim) hrest
    have hstep' : ∀ a, ∀ u ∈ us, ∀ s₄, s₄.SameBut (fun g => others g ∨ own g) s₃ →
        (step a u s₄).1 = judge a u ∧ (step a u s₄).2.SameBut (fun _ => False) s₄ :=
      fun a u hu s₄ hs₄ => hstep a u (List.mem_cons_of_mem _ hu) s₄
        (hs₄.transSame ((hs₃.mono fun _ hg => hg.elim).transSame hs₂'))
    have hnext := ih hrest' hstep'
    simp only [judged]
    cases judge a u with
    | emit v next => exact ⟨s₃, _, rfl, hown, hnext next⟩
    | drop next => exact (hnext next s₃ (.refl _ _)).before hown
    | fail f =>
      rw [Bool.and_false]
      exact Reply.ofFailure_fails f s₃ _

/-- The tuples of a step that fails on none of the tuples below. -/
theorem stateless {step : Tuple → RunState → Verdict Unit × RunState} {g : Tuple → Option Tuple}
    {t : TupleStream} {s : RunState} (h : t.Emits others own complete us s)
    (hstep : ∀ u ∈ us, ∀ s₁, s₁.SameBut (fun g => others g ∨ own g) s →
      (step u s₁).1 = ((g u).elim (.drop ()) fun v => .emit v ()) ∧
        (step u s₁).2.SameBut (fun _ => False) s₁) :
    (t.transduce (.stateless step) ()).Emits others own complete (us.filterMap g) s := by
  have hjudged : ∀ us : List Tuple,
      judged (fun (_ : Unit) u => (g u).elim (.drop ()) fun v => .emit v ()) () us =
        (us.filterMap g, true) := by
    intro us
    induction us with
    | nil => rfl
    | cons u us ih =>
      cases hg : g u with
      | none => simp [judged, hg, ih]
      | some v => simp [judged, hg, ih]
  have hsteady := h.steady (fun _ u hu s₁ hs₁ => hstep u hu s₁ hs₁) ()
  rwa [hjudged, Bool.and_true] at hsteady

/-- A run gives the tuples that are emitted. -/
theorem run {t : TupleStream} {s : RunState} (h : t.Emits others own complete us s) :
    (t.run s).rows = us ∧ ((t.run s).ending = .finished ↔ complete = true) := by
  induction us generalizing t s with
  | nil =>
    rw [t.run_eq]
    have hr := h s (.refl _ _)
    cases complete with
    | true =>
      obtain ⟨s', rest, hr, _⟩ := hr
      rw [hr]
      exact ⟨rfl, iff_of_true rfl rfl⟩
    | false =>
      change (t.pull s).Fails at hr
      generalize t.pull s = r at hr
      cases r with
      | failed e s' => exact ⟨rfl, iff_of_false (by simp [Reply.run]) (by simp)⟩
      | crashed c s' rest => exact ⟨rfl, iff_of_false (by simp [Reply.run]) (by simp)⟩
      | row u s' rest => exact hr.elim
      | finished s' rest => exact hr.elim
  | cons u us ih =>
    rw [t.run_eq]
    obtain ⟨s', rest, hr, _, hrest⟩ := h s (.refl _ _)
    rw [hr]
    have hcount : rest.Emits others own complete us (s'.count .pull) :=
      resume (.count others s' .pull) hrest
    obtain ⟨hrows, hending⟩ := ih hcount
    exact ⟨congrArg (u :: ·) hrows, hending⟩

/-- The tuples that a cursor has ahead of it, as long as it may answer that often. -/
theorem ofCursor (h : TableHandle) (pulls : Nat) {c : Cursor} {s : RunState}
    (hrows : (s.table h).rows.Pairwise (·.1 < ·.1))
    (hpulls : (c.remaining (s.table h)).length ≤ pulls) :
    (TupleStream.ofCursor h pulls c).Emits others own true (c.remaining (s.table h)) s := by
  induction pulls generalizing c s with
  | zero =>
    rw [List.eq_nil_of_length_eq_zero (Nat.le_zero.1 hpulls)]
    exact ended s
  | succ pulls ih =>
    intro s₁ hs₁
    rcases pull_ofCursor (hs₁.rows h) hrows pulls c with
      ⟨hnil, hpull⟩ | ⟨u, d, t, _, ht, hcons, hpull⟩
    · rw [hnil, hpull]
      exact ⟨s₁, _, rfl, .refl _ _⟩
    · have hread : (s₁.setTable h t).SameBut own s₁ := .setTable own s₁ ht
      have hsame : ((s₁.setTable h t).table h).rows = (s.table h).rows :=
        (hread.rows h).trans (hs₁.rows h)
      rw [hcons, List.length_cons] at hpulls
      rw [hcons, hpull]
      refine ⟨_, _, rfl, hread, ?_⟩
      rw [← d.remaining_of_rows hsame] at hpulls ⊢
      exact ih (hsame ▸ hrows) (Nat.le_of_succ_le_succ hpulls)

end TupleStream.Emits

end

/-! ## Plans -/

namespace PhysicalPlan

/-- Whether a plan that is set up in a state gives tuples and ends without a failure. -/
def Gives (t : PhysicalPlan) (s : RunState) (us : List Tuple) : Prop :=
  ∀ canSpill, ∃ v, t.inline canSpill s = .ok v ∧
    v.Emits (fun _ => False) (fun _ => False) true us s

theorem columns_unary (op : Operator) (input : PhysicalPlan) :
    columns (.unary op input) = op.columns (columns input) := by
  rw [PlanTree.unary, columns_node]
  rfl

theorem inline_single (canSpill : Bool) (s : RunState) (group : GroupId) (op : Operator)
    (input : PhysicalPlan) :
    inline canSpill s (.node group op [input]) = (inline canSpill s input).bind fun v =>
      Lowering.stream ⟨0, 0, canSpill⟩ s op (op.columns (columns input)) [input.group] [v] := by
  rw [inline_node, List.mapM_cons, List.mapM_nil]
  cases inline canSpill s input <;> rfl

theorem inline_unary (canSpill : Bool) (s : RunState) (op : Operator) (input : PhysicalPlan) :
    inline canSpill s (.unary op input) = (inline canSpill s input).bind fun v =>
      Lowering.stream ⟨0, 0, canSpill⟩ s op (op.columns (columns input)) [input.group] [v] :=
  inline_single canSpill s input.group op input

/-- An execution of a plan gives its tuples. -/
theorem Gives.execute {t : PhysicalPlan} {q : QueryContext} {e : EngineState} {us : List Tuple}
    (h : t.Gives (q.runState e) us) {limits : RunLimits} (hbind : t.bind q.bindings = .ok ())
    (hlive : q.cancelled = false) (hroom : limits.channelCapacity < Lowering.channelBound) :
    ∃ r, t.execute limits q e = pure r ∧ r.rows = us ∧ r.ending = .finished := by
  obtain ⟨v, hv, hemits⟩ := h (limits.canSpill || false)
  obtain ⟨hrows, hending⟩ := hemits.run
  rcases execute_cases limits false t hbind hlive hroom with ⟨f, hf, _⟩ | ⟨w, r, hw, hr, hlike⟩
  · rw [hv] at hf
    cases hf
  · rw [hv] at hw
    cases hw
    refine ⟨r, hr, ?_⟩
    cases hlike with
    | alike hrows' hshows _ =>
      rw [hending.2 rfl] at hshows
      cases hr' : r.ending with
      | finished => exact ⟨hrows'.trans hrows, rfl⟩
      | failed e => rw [hr'] at hshows; cases hshows
      | crashed c => rw [hr'] at hshows; cases hshows
    | excused _ he _ => cases he.1

end PhysicalPlan

end QueryEngine
