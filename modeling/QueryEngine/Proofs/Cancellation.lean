import QueryEngine.Execution.Cancellation
import QueryEngine.Proofs.Run

/-!
# Results end once

Whatever is done to a run, and whatever its operators do, it answers with tuples, then with at most
one error, and then with its end for ever. Once one of its tokens is set, nothing is pulled any more.
Only a cancellation of the query sets the token of the query.
-/

set_option autoImplicit false

namespace QueryEngine

namespace CancelFlags

@[simp] theorem isSet_cancel (flags : CancelFlags) (token other : CancelToken) :
    (flags.cancel token).isSet other = (other == token || flags.isSet other) := rfl

end CancelFlags

namespace Session

variable {x : Session} {a : Action} {acts : List Action}

/-! ## What an action does -/

theorem act_scope (x : Session) (a : Action) : (x.act a).2.scope = x.scope := by
  cases a <;> rfl

/-- No action but a cancellation of the query sets its token. -/
theorem act_query (x : Session) (a : Action) : (x.act a).2.flags.isSet x.scope.query =
    (x.flags.isSet x.scope.query || a.isCancelQuery) := by
  have hown : (x.scope.cancel x.flags).isSet x.scope.query = x.flags.isSet x.scope.query := by
    simp [CancelScope.cancel, x.scope.apart]
  cases a with
  | cancel => exact hown.trans (Bool.or_false _).symm
  | cancelQuery => simp [act, Action.isCancelQuery]
  | elsewhere change => exact (Bool.or_false _).symm
  | next meanwhile =>
    have hflags (ended : Bool) : (if ended then x.scope.cancel x.flags else x.flags).isSet
        x.scope.query = x.flags.isSet x.scope.query := by
      cases ended with
      | true => exact hown
      | false => rfl
    exact (hflags _).trans (Bool.or_false _).symm

/-- The token of a run that goes on is set by its cancellation and by its end. -/
theorem act_own (hlive : x.hasEnded = false) (a : Action) : (x.act a).2.flags.isSet x.scope.own =
    (x.flags.isSet x.scope.own || a.isCancelOwn || (x.act a).2.hasEnded) := by
  cases a with
  | cancel => simp [act, Action.isCancelOwn, CancelScope.cancel]
  | cancelQuery =>
    have hown : (x.flags.cancel x.scope.query).isSet x.scope.own = x.flags.isSet x.scope.own := by
      simp [x.scope.apart.symm]
    have hends : (x.act .cancelQuery).2.hasEnded = false := hlive
    rw [hends]
    exact hown.trans (by simp [Action.isCancelOwn])
  | elsewhere change =>
    have hends : (x.act (.elsewhere change)).2.hasEnded = false := hlive
    rw [hends]
    exact (Bool.or_false _).symm.trans (Bool.or_false _).symm
  | next meanwhile =>
    have hflags (ended : Bool) : (if ended then x.scope.cancel x.flags else x.flags).isSet
        x.scope.own = (x.flags.isSet x.scope.own || false || ended) := by
      cases ended with
      | true => simp [CancelScope.cancel]
      | false => simp
    exact hflags _

/-- Tokens stay set. -/
theorem act_isSet {token : CancelToken} (h : x.flags.isSet token = true) (a : Action) :
    (x.act a).2.flags.isSet token = true := by
  cases a with
  | cancel => simp [act, CancelScope.cancel, h]
  | cancelQuery => simp [act, h]
  | elsewhere change => exact h
  | next meanwhile =>
    have hflags (ended : Bool) :
        (if ended then x.scope.cancel x.flags else x.flags).isSet token = true := by
      cases ended with
      | true => simp [CancelScope.cancel, h]
      | false => exact h
    exact hflags _

/-- A run that has ended answers with its end and leaves all else. -/
theorem act_ended (hended : x.hasEnded = true) (a : Action) :
    (x.act a).1 = List.replicate (if a.isNext then 1 else 0) .finished ∧
      (x.act a).2.hasEnded = true ∧ (x.act a).2.engine = a.change x.engine := by
  cases a with
  | cancel => exact ⟨rfl, hended, rfl⟩
  | cancelQuery => exact ⟨rfl, hended, rfl⟩
  | elsewhere change => exact ⟨rfl, hended, rfl⟩
  | next meanwhile =>
    have hnone : x.result.source = none := Option.isNone_iff_eq_none.1 hended
    simp [act, next, withOperators, hnone, ResultStream.next, hasEnded, isAnswer, Action.isNext,
      Action.change]

theorem exists_source (hlive : x.hasEnded = false) : ∃ t, x.result.source = some t := by
  apply Option.ne_none_iff_exists'.1
  intro hnone
  rw [hasEnded, hnone] at hlive
  cases hlive

/-- A run with a token that is set answers the next call with its cancellation and ends. -/
theorem act_cancelled (hlive : x.hasEnded = false) (hcancelled : x.isCancelled = true) (a : Action) :
    (x.act a).1 = List.replicate (if a.isNext then 1 else 0) (.failed (.error .cancelled)) ∧
      (x.act a).2.hasEnded = a.isNext ∧ (x.act a).2.isCancelled = true ∧
      (x.act a).2.engine = a.change x.engine := by
  simp only [isCancelled, CancelScope.isCancelled] at hcancelled
  cases a with
  | cancel => exact ⟨rfl, hlive, by simp [act, isCancelled, CancelScope.isCancelled, CancelScope.cancel], rfl⟩
  | cancelQuery => exact ⟨rfl, hlive, by simp [act, isCancelled, CancelScope.isCancelled], rfl⟩
  | elsewhere change => exact ⟨rfl, hlive, hcancelled, rfl⟩
  | next meanwhile =>
    obtain ⟨t, ht⟩ := exists_source hlive
    simp [act, next, withOperators, ht, ResultStream.next, hcancelled, hasEnded, isCancelled,
      CancelScope.isCancelled, CancelScope.cancel, isAnswer, Action.isNext, Action.change]

/-- A call on a run that goes on answers with a tuple and goes on, ends with an answer, or crashes and
goes on. -/
theorem act_live (hlive : x.hasEnded = false) (a : Action) :
    ((x.act a).1 = [] ∧ (x.act a).2.hasEnded = false) ∨
      (∃ u, (x.act a).1 = [.row u] ∧ (x.act a).2.hasEnded = false) ∨
      ((x.act a).1 = [.finished] ∧ (x.act a).2.hasEnded = true) ∨
      ∃ e, (x.act a).1 = [.failed (.error e)] ∧ (x.act a).2.hasEnded = true := by
  cases hcancelled : x.isCancelled with
  | true =>
    obtain ⟨hanswers, hended, -⟩ := act_cancelled hlive hcancelled a
    cases hnext : a.isNext with
    | true => exact .inr (.inr (.inr ⟨.cancelled, by rw [hanswers, hnext]; rfl, hended.trans hnext⟩))
    | false => exact .inl ⟨by rw [hanswers, hnext]; rfl, hended.trans hnext⟩
  | false =>
    cases a with
    | cancel => exact .inl ⟨rfl, hlive⟩
    | cancelQuery => exact .inl ⟨rfl, hlive⟩
    | elsewhere change => exact .inl ⟨rfl, hlive⟩
    | next meanwhile =>
      obtain ⟨t, ht⟩ := exists_source hlive
      simp only [isCancelled, CancelScope.isCancelled] at hcancelled
      simp only [act, next, withOperators, ht, Option.map_some, ResultStream.next, hcancelled,
        Bool.false_eq_true, if_false, hasEnded]
      cases (meanwhile t).pull ⟨x.engine.store, x.engine.profile, x.result.bindings, x.result.affected⟩ with
      | row u s rest => exact .inr (.inl ⟨u, rfl, rfl⟩)
      | finished s rest => exact .inr (.inr (.inl ⟨rfl, rfl⟩))
      | failed e s => exact .inr (.inr (.inr ⟨e, rfl, rfl⟩))
      | crashed c s rest => exact .inl ⟨rfl, rfl⟩

/-! ## Runs -/

theorem run_cons (x : Session) (a : Action) (acts : List Action) :
    x.run (a :: acts) =
      ((x.act a).1 ++ ((x.act a).2.run acts).1, ((x.act a).2.run acts).2) := rfl

/-- The number of calls among actions. -/
def calls (acts : List Action) : Nat := acts.countP Action.isNext

theorem calls_cons (a : Action) (acts : List Action) :
    calls (a :: acts) = (if a.isNext then 1 else 0) + calls acts := by
  rw [calls, List.countP_cons, Nat.add_comm]
  rfl

/-- What actions make of the tables and the counters when none of them pulls. -/
def changed (acts : List Action) (e : EngineState) : EngineState :=
  acts.foldl (fun e a => a.change e) e

theorem run_scope (x : Session) (acts : List Action) : (x.run acts).2.scope = x.scope := by
  induction acts generalizing x with
  | nil => rfl
  | cons a acts ih => exact (ih (x.act a).2).trans (act_scope x a)

theorem run_query (x : Session) (acts : List Action) : (x.run acts).2.flags.isSet x.scope.query =
    (x.flags.isSet x.scope.query || acts.any Action.isCancelQuery) := by
  induction acts generalizing x with
  | nil => exact (Bool.or_false _).symm
  | cons a acts ih =>
    have hlater := ih (x.act a).2
    rw [act_scope, act_query] at hlater
    rw [run_cons, hlater, List.any_cons, Bool.or_assoc]

theorem run_ended (hended : x.hasEnded = true) (acts : List Action) :
    (x.run acts).1 = List.replicate (calls acts) .finished ∧ (x.run acts).2.hasEnded = true ∧
      (x.run acts).2.engine = changed acts x.engine := by
  induction acts generalizing x with
  | nil => exact ⟨rfl, hended, rfl⟩
  | cons a acts ih =>
    obtain ⟨hanswers, hstays, hengine⟩ := act_ended hended a
    obtain ⟨hlater, hends, hlast⟩ := ih hstays
    rw [run_cons, hanswers, hlater, hlast, hengine, calls_cons,
      ← List.replicate_append_replicate]
    exact ⟨rfl, hends, rfl⟩

theorem run_isSet {token : CancelToken} (h : x.flags.isSet token = true) (acts : List Action) :
    (x.run acts).2.flags.isSet token = true := by
  induction acts generalizing x with
  | nil => exact h
  | cons a acts ih => exact ih (act_isSet h a)

/-- The token of a run is set by its cancellation and by its end. -/
theorem run_own (hlive : x.hasEnded = false) (acts : List Action) :
    (x.run acts).2.flags.isSet x.scope.own =
      (x.flags.isSet x.scope.own || acts.any Action.isCancelOwn || (x.run acts).2.hasEnded) := by
  induction acts generalizing x with
  | nil => simp [run, hlive]
  | cons a acts ih =>
    have hone := act_own hlive a
    rw [run_cons, List.any_cons]
    cases hends : (x.act a).2.hasEnded with
    | false =>
      have hlater := ih hends
      rw [act_scope, hone, hends] at hlater
      rw [hlater]
      simp only [Bool.or_false, Bool.or_assoc]
    | true =>
      rw [hends, Bool.or_true] at hone
      rw [run_isSet hone, (run_ended hends acts).2.1, Bool.or_true]

/-- A run that goes on is cancelled as soon as something asks for its end. -/
theorem run_isCancelled (hlive : (x.run acts).2.hasEnded = false) :
    (x.run acts).2.isCancelled = (x.isCancelled || acts.any Action.isCancel) := by
  have hfirst : x.hasEnded = false := by
    cases hended : x.hasEnded with
    | false => rfl
    | true => exact absurd ((run_ended hended acts).2.1.symm.trans hlive) Bool.noConfusion
  have hany : acts.any Action.isCancel =
      (acts.any Action.isCancelOwn || acts.any Action.isCancelQuery) := by
    rw [Bool.eq_iff_iff]
    simp [Action.isCancel, exists_or, and_or_left]
  have hown := run_own hfirst acts
  rw [hlive, Bool.or_false] at hown
  rw [isCancelled, CancelScope.isCancelled, run_scope, hown, run_query, hany, isCancelled,
    CancelScope.isCancelled]
  ac_rfl

/-- Of a run with a token that is set, the first call is answered with the cancellation. -/
theorem run_cancelled (hlive : x.hasEnded = false) (hcancelled : x.isCancelled = true)
    (acts : List Action) :
    (x.run acts).1 = (.failed (.error .cancelled) :: List.replicate (calls acts) .finished).take
        (calls acts) ∧
      (x.run acts).2.engine = changed acts x.engine := by
  induction acts generalizing x with
  | nil => exact ⟨rfl, rfl⟩
  | cons a acts ih =>
    obtain ⟨hanswers, hends, hstays, hengine⟩ := act_cancelled hlive hcancelled a
    rw [run_cons, hanswers, calls_cons]
    cases hnext : a.isNext with
    | false =>
      obtain ⟨hlater, hlast⟩ := ih (hends.trans hnext) hstays
      rw [hlater, hlast, hengine]
      simp [changed]
    | true =>
      obtain ⟨hlater, -, hlast⟩ := run_ended (hends.trans hnext) acts
      rw [hlater, hlast, hengine]
      simp [changed, Nat.add_comm 1]

/-- Answers that are tuples, then at most one error, and then the end. -/
def Orderly (answers : List Pulled) : Prop :=
  ∃ (rows : List Tuple) (errors : List ExecutionError) (n : Nat), errors.length ≤ 1 ∧
    answers = rows.map .row ++ errors.map (fun e => .failed (.error e)) ++ List.replicate n .finished

theorem run_orderly (x : Session) (acts : List Action) : Orderly (x.run acts).1 := by
  cases hended : x.hasEnded with
  | true => exact ⟨[], [], _, Nat.zero_le 1, (run_ended hended acts).1⟩
  | false =>
    induction acts generalizing x with
    | nil => exact ⟨[], [], 0, Nat.zero_le 1, rfl⟩
    | cons a acts ih =>
      rw [run_cons]
      rcases act_live hended a with ⟨hanswers, hlive⟩ | ⟨u, hanswers, hlive⟩ | ⟨hanswers, hends⟩ |
        ⟨e, hanswers, hends⟩
      · rw [hanswers]
        exact ih (x.act a).2 hlive
      · obtain ⟨rows, errors, n, hone, hlater⟩ := ih (x.act a).2 hlive
        rw [hanswers, hlater]
        exact ⟨u :: rows, errors, n, hone, rfl⟩
      · rw [hanswers, (run_ended hends acts).1]
        exact ⟨[], [], calls acts + 1, Nat.zero_le 1, rfl⟩
      · rw [hanswers, (run_ended hends acts).1]
        exact ⟨[], [e], calls acts, Nat.le_refl 1, rfl⟩

theorem withOperators_hasEnded (x : Session) (tree : TupleStream → TupleStream) :
    (x.withOperators tree).hasEnded = x.hasEnded := by
  simp [withOperators, hasEnded]

/-- Results end once and stay ended, whatever is done to them and whatever their operators do. Once
the end of the run or of its query has been asked for before the end was reached, the next call is
answered with the cancellation and no call pulls: with any other operators, the answers and what is
left of the tables and the counters are the same. The token of the query is set by a cancellation of
the query only, that of the run by its cancellation and by its end. -/
theorem ends_once (x : Session) (acts : List Action) :
    Orderly (x.run acts).1 ∧
      (∀ before after, acts = before ++ after → (x.run before).2.hasEnded = false →
        x.isCancelled = true ∨ (∃ a ∈ before, a.isCancel = true) →
        ∀ tree : TupleStream → TupleStream,
          (((x.run before).2.withOperators tree).run after).1 =
              (.failed (.error .cancelled) :: List.replicate (calls after) .finished).take
                (calls after) ∧
            (((x.run before).2.withOperators tree).run after).2.engine =
              changed after (x.run before).2.engine) ∧
      (x.run acts).2.flags.isSet x.scope.query =
        (x.flags.isSet x.scope.query || acts.any Action.isCancelQuery) ∧
      (x.hasEnded = false → (x.run acts).2.flags.isSet x.scope.own =
        (x.flags.isSet x.scope.own || acts.any Action.isCancelOwn || (x.run acts).2.hasEnded)) := by
  refine ⟨run_orderly x acts, ?_, run_query x acts, fun hlive => run_own hlive acts⟩
  intro before after _ hlive hcancelled tree
  have hset : (x.run before).2.isCancelled = true := by
    rw [run_isCancelled hlive]
    simpa using hcancelled
  exact run_cancelled ((withOperators_hasEnded _ tree).trans hlive) hset after

end Session

namespace Stopped

def key : Column := ⟨"t.k", .long, false⟩

def engine : EngineState :=
  ⟨⟨[⟨"t", [key], [(0, [.long 5]), (1, [.long 6]), (2, [.long 7])], 3, [], 0⟩]⟩, .empty⟩

def plan : PhysicalPlan := .node 0 (.scan (engine.store.handle 0) [key] 0 1) []

def query : QueryContext := ⟨.none, .standard, .empty, 0, false⟩

/-- One token has been given to a query, and it is not set. -/
def flags : CancelFlags := ⟨fun _ => false, 1⟩

/-- The plan as it is started. -/
def session : Session :=
  ⟨⟨[key], some (.ofCursor (engine.store.handle 0) TupleStream.unbounded ⟨[key], [0], 0, 1, none⟩),
    false, .empty, 0⟩, .new 0 flags Nat.zero_lt_one, flags.grant, engine.count .lower 1⟩

end Stopped

open Stopped in
/-- A scan of three rows that is cancelled after the first one. -/
theorem Session.ends_once_stopped :
    start ⟨0, 0, true⟩ plan query 0 Stopped.flags Nat.zero_lt_one Stopped.engine = pure session ∧
    (session.run [.next id, .cancel, .next id, .next id]).1 =
      [.row ⟨0, [key], [.long 5]⟩, .failed (.error .cancelled), .finished] ∧
    ((session.run [.next id, .cancel]).2.run [.next id, .next id]).1 =
      [.failed (.error .cancelled), .finished] ∧
    (session.run [.next id, .cancel]).2.flags.isSet session.scope.own = true ∧
    (session.run [.next id, .cancel]).2.flags.isSet session.scope.query = false := by
  have hcancel : ∃ a ∈ [Action.next id, .cancel], a.isCancel = true := ⟨.cancel, by simp, rfl⟩
  obtain ⟨-, hstopped, -, -⟩ := ends_once session [.next id, .cancel, .next id, .next id]
  obtain ⟨-, -, hquery, hown⟩ := ends_once session [.next id, .cancel]
  obtain ⟨hanswers, -⟩ :=
    hstopped [.next id, .cancel] [.next id, .next id] rfl rfl (.inr hcancel) id
  exact ⟨rfl, rfl, hanswers, hown rfl, hquery⟩

end QueryEngine
