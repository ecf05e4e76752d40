import QueryEngine.Execution.Result

/-!
# Runs

A run pulls a stream until it answers with its end, with an error or with a crash. Results of
queries are read this way: every answer but a crash is counted as a pull.

What a combinator makes of a stream is told by its first pull. The equations below give that pull
for both forms of a stream, so that proofs need not tell them apart.
-/

set_option autoImplicit false

namespace QueryEngine

/-- How a run ended. -/
inductive Ending where
  | finished
  | failed (e : ExecutionError)
  | crashed (c : Crash)
deriving DecidableEq

/-- What pulling a stream to its end came to. -/
structure Run where
  rows : List Tuple
  ending : Ending
  state : RunState
deriving DecidableEq

/-- Whether a state is another one with other counters. -/
def RunState.Recounted (s s' : RunState) : Prop := ∃ p, s' = { s with profile := p }

namespace RunState.Recounted

variable {s s' s'' : RunState}

theorem refl (s : RunState) : Recounted s s := ⟨s.profile, rfl⟩

theorem trans (h : Recounted s s') (h' : Recounted s' s'') : Recounted s s'' := by
  obtain ⟨p, rfl⟩ := h
  obtain ⟨p', rfl⟩ := h'
  exact ⟨p', rfl⟩

theorem symm (h : Recounted s s') : Recounted s' s := by
  obtain ⟨p, rfl⟩ := h
  exact ⟨s.profile, rfl⟩

theorem count (s : RunState) (item : ProfileItem) : Recounted s (s.count item) := ⟨_, rfl⟩

end RunState.Recounted

/-- The run with a further tuple in front. -/
def Run.after (u : Tuple) (r : Run) : Run := { r with rows := u :: r.rows }

mutual

def TupleStream.run : TupleStream → RunState → Run
  | .ended, s => ⟨[], .finished, s.count .pull⟩
  | .of pull, s => (pull s).run

def Reply.run : Reply → Run
  | .row u s rest => (rest.run (s.count .pull)).after u
  | .finished s _ => ⟨[], .finished, s.count .pull⟩
  | .failed e s => ⟨[], .failed e, s.count .pull⟩
  | .crashed c s _ => ⟨[], .crashed c, s⟩

end

/-- What is left of a stream after a reply. -/
def Reply.rest? : Reply → Option TupleStream
  | .row _ _ rest => some rest
  | .finished _ rest => some rest
  | .failed _ _ => none
  | .crashed _ _ rest => some rest

namespace TupleStream

theorem run_eq (t : TupleStream) (s : RunState) : t.run s = (t.pull s).run := by
  cases t with
  | ended => rfl
  | of pull => rfl

/-- What holds of a stream whenever it holds of all that can be left of it holds of every stream. -/
theorem inductRests {motive : TupleStream → Prop} (ended : motive .ended)
    (of : ∀ pull : RunState → Reply,
      (∀ s rest, (pull s).rest? = some rest → motive rest) → motive (.of pull))
    (t : TupleStream) : motive t :=
  onStream t
where
  onStream : ∀ t, motive t
    | .ended => ended
    | .of pull => of pull fun s => onReply (pull s)
  onReply : ∀ (r : Reply) rest, r.rest? = some rest → motive rest
    | .row _ _ left, _, h => Option.some.inj h ▸ onStream left
    | .finished _ left, _, h => Option.some.inj h ▸ onStream left
    | .crashed _ _ left, _, h => Option.some.inj h ▸ onStream left
    | .failed _ _, _, h => nomatch h

/-- The same where it is enough to know all that is left after a tuple. -/
theorem induct {motive : TupleStream → Prop}
    (step : ∀ t, (∀ s u s' rest, t.pull s = .row u s' rest → motive rest) → motive t)
    (t : TupleStream) : motive t := by
  induction t using inductRests with
  | ended => exact step .ended fun _ _ _ _ h => nomatch h
  | of pull ih =>
    refine step (.of pull) fun s u s' rest h => ih s rest ?_
    exact congrArg Reply.rest? h

end TupleStream

/-! ## What is read -/

mutual

/-- The tuples that are taken from a stream that is read to its end. -/
def TupleStream.taken {σ : Type} (step : σ → Tuple → RunState → Outcome σ) :
    TupleStream → σ → RunState → List Tuple
  | .ended, _, _ => []
  | .of pull, a, s => (pull s).taken step a

def Reply.taken {σ : Type} (step : σ → Tuple → RunState → Outcome σ) : Reply → σ → List Tuple
  | .row u s rest, a =>
    u :: match step a u s with
      | (.ok next, s) => rest.taken step next s
      | (.error _, _) => []
  | .finished _ _, _ => []
  | .failed _ _, _ => []
  | .crashed _ _ _, _ => []

end

/-! ## First pulls -/

namespace TupleStream

theorem pull_of (pull : RunState → Reply) (s : RunState) : (of pull).pull s = pull s := rfl

theorem pull_ofList_nil (s : RunState) : (ofList []).pull s = .finished s ended := rfl

theorem pull_ofList_cons (u : Tuple) (us : List Tuple) (s : RunState) :
    (ofList (u :: us)).pull s = .row u s (ofList us) := rfl

/-- A transducer that cannot refuse to pull answers after the stream below. -/
theorem pull_transduce {σ : Type} {m : Transducer σ} {a : σ} {ready : Bool}
    (h : m.isReady a = .ok ready) (t : TupleStream) (s : RunState) :
    (t.transduce m a).pull s = if ready then (t.pull s).transduce m a else .finished s ended := by
  cases t with
  | ended => cases ready <;> rfl
  | of pull =>
    simp only [TupleStream.transduce, pull_of, h]
    cases ready <;> rfl

theorem pull_steady {σ : Type} (step : σ → Tuple → RunState → Verdict σ × RunState) (a : σ)
    (t : TupleStream) (s : RunState) :
    (t.transduce (.steady step) a).pull s = (t.pull s).transduce (.steady step) a :=
  pull_transduce (m := .steady step) rfl t s

theorem drain_eq {σ : Type} (step : σ → Tuple → RunState → Outcome σ) (t : TupleStream) (a : σ)
    (s : RunState) : t.drain step a s = (t.pull s).drain step a := by
  cases t with
  | ended => rfl
  | of pull => rfl

theorem taken_eq {σ : Type} (step : σ → Tuple → RunState → Outcome σ) (t : TupleStream) (a : σ)
    (s : RunState) : t.taken step a s = (t.pull s).taken step a := by
  cases t with
  | ended => rfl
  | of pull => rfl

/-- What every step keeps holds of the tuples that are taken and of what they have come to. -/
theorem drain_invariant {σ : Type} {step : σ → Tuple → RunState → Outcome σ}
    {holds : List Tuple → σ → Prop}
    (hstep : ∀ us a u s next s', holds us a → step a u s = (.ok next, s') → holds (us ++ [u]) next)
    (t : TupleStream) : ∀ {us : List Tuple} {a b : σ} {s : RunState}, holds us a →
      (t.drain step a s).result = .ok b → holds (us ++ t.taken step a s) b := by
  induction t using TupleStream.induct with
  | step t ih =>
    intro us a b s ha
    rw [drain_eq, taken_eq]
    have rests := ih s
    generalize t.pull s = r at rests
    cases r with
    | failed e s' => exact fun hok => nomatch hok
    | crashed c s' rest => exact fun hok => nomatch hok
    | finished s' rest =>
      intro hok
      cases hok
      simpa [Reply.taken] using ha
    | row u s' rest =>
      simp only [Reply.drain, Reply.taken]
      cases hs : step a u s' with
      | mk r s'' =>
        cases r with
        | error f => exact fun hok => nomatch hok
        | ok next =>
          intro hok
          have hnext := hstep us a u s' next s'' ha hs
          have hlast := rests u s' rest rfl hnext hok
          rwa [List.append_assoc] at hlast

theorem pull_append (t next : TupleStream) (s : RunState) :
    (t.append next).pull s = (t.pull s).append next := by
  cases t with
  | ended => rfl
  | of pull => rfl

theorem pull_onWorker (group : GroupId) (t : TupleStream) (s : RunState) :
    (t.onWorker group).pull s = (t.pull s).onWorker group := by
  cases t with
  | ended => rfl
  | of pull => rfl

theorem pull_retrying (prepare : List TupleStream → RunState → Attempt TupleStream) (times : Nat)
    (inputs : List TupleStream) (s : RunState) :
    (retrying prepare (times + 1) inputs).pull s =
      match (prepare inputs s).result with
      | .ok t => t.pull (prepare inputs s).state
      | .error f =>
        .ofFailure f (prepare inputs s).state
          (retrying prepare times (prepare inputs s).inputs) := rfl

end TupleStream

/-! ## Runs of results -/

namespace ResultStream

/-- The state in which a result is pulled. -/
def runState (r : ResultStream) (e : EngineState) : RunState :=
  ⟨e.store, e.profile, r.bindings, r.affected⟩

/-- What all further pulls on a result come to. A result without a stream has ended. -/
def run (r : ResultStream) (e : EngineState) : Run :=
  match r.source with
  | some t => t.run (r.runState e)
  | none => ⟨[], .finished, r.runState e⟩

/-- A run goes as the pulls on a result go, one after another. -/
theorem run_eq_next (r : ResultStream) (e : EngineState) (h : r.cancelled = false) :
    match r.next false e with
    | (.row u, r', e') => r.run e = (r'.run e').after u
    | (.finished, r', e') => r.run e = ⟨[], .finished, r'.runState e'⟩
    | (.failed (.error f), r', e') => r.run e = ⟨[], .failed f, r'.runState e'⟩
    | (.failed (.crashed c), r', e') => r.run e = ⟨[], .crashed c, r'.runState e'⟩ := by
  obtain ⟨columns, source, cancelled, bindings, affected⟩ := r
  cases source with
  | none => rfl
  | some t =>
    subst h
    simp only [next, run, runState, Bool.or_self, Bool.false_eq_true, if_false, t.run_eq]
    cases t.pull ⟨e.store, e.profile, bindings, affected⟩ with
    | row u s rest => rfl
    | finished s rest => rfl
    | failed f s => rfl
    | crashed c s rest => rfl

end ResultStream

/-- Starts a plan and reads its result to the end. -/
def PhysicalPlan.execute (limits : RunLimits) (t : PhysicalPlan) (q : QueryContext)
    (e : EngineState) : Fallible QueryError Run :=
  let started := ResultStream.start limits t q e
  started.1.map fun r => r.run started.2

end QueryEngine
