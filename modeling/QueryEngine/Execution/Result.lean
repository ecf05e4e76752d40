import QueryEngine.Execution.Lower
import QueryEngine.Query.Context
import QueryEngine.Query.Engine

/-!
# Results of queries

A plan is started on a copy of the query's late-bound values and answers with a stream of result
tuples. A stream that has come to its end, to an error or to its cancellation stays ended.
-/

set_option autoImplicit false

namespace QueryEngine

structure ResultStream where
  columns : List Column
  /-- The stream of tuples, until it has ended. -/
  source : Option TupleStream
  /-- Whether this run has been cancelled, apart from its query. -/
  cancelled : Bool
  bindings : Bindings
  affected : Nat

/-- The answer to a pull on a result. -/
inductive Pulled where
  | row (t : Tuple)
  | finished
  | failed (f : Failure)

namespace ResultStream

/-- Requests the end of this run. -/
def cancel (r : ResultStream) : ResultStream := { r with cancelled := true }

/-- Takes over the state after a pull, with the rest of the stream. -/
def proceed (r : ResultStream) (rest : Option TupleStream) (s : RunState) : ResultStream :=
  { r with source := rest, bindings := s.bindings, affected := s.affected }

/-- Pulls for the next tuple. After a crash, which is not counted as a pull, the stream goes on. -/
def next (r : ResultStream) (queryCancelled : Bool) (e : EngineState) :
    Pulled × ResultStream × EngineState :=
  match r.source with
  | none => (.finished, r, e)
  | some t =>
    if r.cancelled || queryCancelled then
      (.failed (.error .cancelled), { r with source := none }, e)
    else
      match t.pull ⟨e.store, e.profile, r.bindings, r.affected⟩ with
      | .row u s rest => (.row u, r.proceed (some rest) s, ⟨s.store, s.profile.add .pull 1⟩)
      | .finished s _ => (.finished, r.proceed none s, ⟨s.store, s.profile.add .pull 1⟩)
      | .failed f s =>
        (.failed (.error f), r.proceed none s, ⟨s.store, s.profile.add .pull 1⟩)
      | .crashed c s rest => (.failed (.crashed c), r.proceed (some rest) s, ⟨s.store, s.profile⟩)

/-- Starts a plan. Every late-bound value has to be given and the query must not be cancelled. -/
def start (limits : RunLimits) (t : PhysicalPlan) (q : QueryContext) (e : EngineState) :
    Fallible QueryError ResultStream × EngineState :=
  match t.bind q.bindings with
  | .error cause => (throw (.binding cause), e)
  | .ok () =>
    if q.cancelled then (throw (.execution .cancelled), e)
    else
      match Lowering.lower limits t ⟨⟨e.store, e.profile, q.bindings, 0⟩, 0⟩ with
      | (.ok source, st) =>
        (pure ⟨t.columns, some source, false, q.bindings, 0⟩, ⟨st.run.store, st.run.profile⟩)
      | (.error (.error cause), st) =>
        (throw (.execution cause), ⟨st.run.store, st.run.profile⟩)
      | (.error (.crashed crash), st) =>
        (throwThe Crash crash, ⟨st.run.store, st.run.profile⟩)

end ResultStream

end QueryEngine
