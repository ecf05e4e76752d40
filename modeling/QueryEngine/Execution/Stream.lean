import QueryEngine.Query.Profile
import QueryEngine.Storage.Store

/-!
# Tuple streams

A stream is pulled for one tuple at a time. A pull reads and changes the state of the run and
answers with a tuple, with the end of the stream, with an error or with a crash. An error is final.
After a crash the stream goes on: the next pull resumes from what was left. A stream may also be
pulled beyond its end, and may then find tuples that were not there before.

Streams are well-founded: every way of pulling one comes to an end, so that a whole run is a
structural recursion.

Operators on streams are built from a few combinators: `transduce` works tuple by tuple, `drain`
and `consume` read a stream to its end, `append` puts one stream after another, `deferred` and
`retrying` prepare something at the first pull.
-/

set_option autoImplicit false

namespace QueryEngine

/-- What operators read and change while a query runs. -/
structure RunState where
  store : Store
  profile : Profile
  /-- The run's own late-bound values. -/
  bindings : Bindings
  /-- Rows inserted, updated or deleted. -/
  affected : Nat
deriving DecidableEq

namespace RunState

def count (s : RunState) (item : ProfileItem) : RunState :=
  { s with profile := s.profile.add item 1 }

def table (s : RunState) (h : TableHandle) : Table := h.table s.store

def setTable (s : RunState) (h : TableHandle) (t : Table) : RunState :=
  { s with store := s.store.setTable h.number t }

/-- Counts a row as affected. -/
def affect (s : RunState) : RunState := { s with affected := s.affected + 1 }

end RunState

mutual

inductive TupleStream where
  /-- A stream that stays at its end. -/
  | ended
  | of (pull : RunState → Reply)

/-- The answer to a pull, with the rest of the stream. -/
inductive Reply where
  | row (t : Tuple) (s : RunState) (rest : TupleStream)
  | finished (s : RunState) (rest : TupleStream)
  | failed (e : ExecutionError) (s : RunState)
  | crashed (c : Crash) (s : RunState) (rest : TupleStream)

end

/-- The answer to a pull that fails; a crash leaves a rest. -/
def Reply.ofFailure (f : Failure) (s : RunState) (rest : TupleStream) : Reply :=
  match f with
  | .error e => failed e s
  | .crashed c => crashed c s rest

/-- What a computation on the state of the run came to. -/
abbrev Outcome (α : Type) := Except Failure α × RunState

/-- The outcome with a function applied to the result. -/
def Outcome.map {α β : Type} (f : α → β) (o : Outcome α) : Outcome β := (o.1.map f, o.2)

namespace TupleStream

def pull : TupleStream → RunState → Reply
  | ended, s => .finished s ended
  | of pull, s => pull s

/-- A stream of given tuples. -/
def ofList : List Tuple → TupleStream
  | [] => ended
  | t :: rest => of fun s => .row t s (ofList rest)

/-- A stream that finds out how to answer when it is pulled first. A crash on the way ends it. -/
def deferred (start : RunState → Outcome TupleStream) : TupleStream :=
  of fun s =>
    match start s with
    | (.ok t, s) => t.pull s
    | (.error f, s) => .ofFailure f s ended

end TupleStream

/-! ## Tuple by tuple -/

/-- What becomes of a tuple, with the next state of the transducer. -/
inductive Verdict (σ : Type) where
  | emit (t : Tuple) (next : σ)
  | drop (next : σ)
  | fail (f : Failure)

/-- The verdict of a step that may fail. -/
def Verdict.ofResult {α σ : Type} (r : Except Failure α) (judge : α → Verdict σ) : Verdict σ :=
  match r with
  | .ok a => judge a
  | .error f => fail f

/-- A machine that works on a stream tuple by tuple. -/
structure Transducer (σ : Type) where
  /-- Whether to pull on; false ends the stream for good. -/
  isReady : σ → Except ExecutionError Bool
  step : σ → Tuple → RunState → Verdict σ × RunState
  /-- The state once the stream below has come to its end. -/
  atEnd : σ → σ

namespace Transducer

/-- A transducer that always pulls on and takes no notice of the end. -/
def steady {σ : Type} (step : σ → Tuple → RunState → Verdict σ × RunState) : Transducer σ :=
  ⟨fun _ => .ok true, step, id⟩

/-- A steady transducer without a state of its own. -/
def stateless (step : Tuple → RunState → Verdict Unit × RunState) : Transducer Unit :=
  steady fun _ => step

end Transducer

mutual

/-- Runs a transducer over a stream. A tuple at which it crashes is lost. -/
def TupleStream.transduce {σ : Type} (m : Transducer σ) : TupleStream → σ → TupleStream
  | .ended, _ => .ended
  | .of pull, a => .of fun s =>
    match m.isReady a with
    | .error e => .failed e s
    | .ok false => .finished s .ended
    | .ok true => (pull s).transduce m a

def Reply.transduce {σ : Type} (m : Transducer σ) : Reply → σ → Reply
  | .row t s rest, a =>
    match m.step a t s with
    | (.emit u next, s) => .row u s (rest.transduce m next)
    | (.drop next, s) => (rest.transduce m next).pull s
    | (.fail f, s) => .ofFailure f s (rest.transduce m a)
  | .finished s rest, a => .finished s (rest.transduce m (m.atEnd a))
  | .failed e s, _ => .failed e s
  | .crashed c s rest, a => .crashed c s (rest.transduce m a)

end

/-! ## To the end -/

/-- What reading a stream came to, and what was left of it. -/
structure Drained (σ : Type) where
  result : Except Failure σ
  rest : TupleStream
  state : RunState

mutual

/-- Reads a stream to its end with a step for each tuple. -/
def TupleStream.drain {σ : Type} (step : σ → Tuple → RunState → Outcome σ) :
    TupleStream → σ → RunState → Drained σ
  | .ended, a, s => ⟨.ok a, .ended, s⟩
  | .of pull, a, s => (pull s).drain step a

def Reply.drain {σ : Type} (step : σ → Tuple → RunState → Outcome σ) : Reply → σ → Drained σ
  | .row t s rest, a =>
    match step a t s with
    | (.ok next, s) => rest.drain step next s
    | (.error f, s) => ⟨.error f, rest, s⟩
  | .finished s rest, a => ⟨.ok a, rest, s⟩
  | .failed e s, _ => ⟨.error (.error e), .ended, s⟩
  | .crashed c s rest, _ => ⟨.error (.crashed c), rest, s⟩

end

namespace TupleStream

/-- Reads a stream to its end and lets go of what is left of it. -/
def consume {σ : Type} (step : σ → Tuple → RunState → Outcome σ) (t : TupleStream) (a : σ)
    (s : RunState) : Outcome σ :=
  let read := t.drain step a s
  (read.result, read.state)

/-- Reads a stream to its end with a step that does not touch the state of the run. -/
def reduce {σ : Type} (step : σ → Tuple → Except Failure σ) (t : TupleStream) (a : σ)
    (s : RunState) : Outcome σ :=
  t.consume (fun a u s => (step a u, s)) a s

/-- The tuples of a stream. -/
def collect (t : TupleStream) (s : RunState) : Outcome (List Tuple) :=
  t.reduce (fun found u => .ok (found ++ [u])) [] s

end TupleStream

/-! ## One after another -/

mutual

def TupleStream.append : TupleStream → TupleStream → TupleStream
  | .ended, next => next
  | .of pull, next => .of fun s => (pull s).append next

def Reply.append : Reply → TupleStream → Reply
  | .row t s rest, next => .row t s (rest.append next)
  | .finished s _, next => next.pull s
  | .failed e s, _ => .failed e s
  | .crashed c s rest, next => .crashed c s (rest.append next)

end

/-- The tuples of all streams, stream by stream. -/
def TupleStream.concat (streams : List TupleStream) : TupleStream :=
  streams.foldr .append .ended

/-! ## Preparations that are repeated -/

/-- What reading several streams came to, and what was left of them. -/
structure Attempt (α : Type) where
  result : Except Failure α
  inputs : List TupleStream
  state : RunState

namespace Attempt

def map {α β : Type} (f : α → β) (a : Attempt α) : Attempt β := { a with result := a.result.map f }

/-- An attempt with what was left of a stream in front of the others. -/
def after {α : Type} (left : TupleStream) (a : Attempt α) : Attempt α :=
  { a with inputs := left :: a.inputs }

end Attempt

namespace TupleStream

/-- Prepares a stream from inputs when it is pulled first. After a crash the next pull prepares it
anew from what was left of the inputs, but only so many times. -/
def retrying (prepare : List TupleStream → RunState → Attempt TupleStream) :
    Nat → List TupleStream → TupleStream
  | 0, _ => ended
  | times + 1, inputs => of fun s =>
    let attempt := prepare inputs s
    match attempt.result with
    | .ok t => t.pull attempt.state
    | .error f => .ofFailure f attempt.state (retrying prepare times attempt.inputs)

/-- More pulls than any consumer makes. -/
def unbounded : Nat := UInt64.size

/-- Prepares something from all inputs but the first, and then goes on with the first one. -/
def afterOthers {α : Type} (prepare : List TupleStream → RunState → Attempt α)
    (go : α → TupleStream → TupleStream) : List TupleStream → TupleStream :=
  retrying (fun inputs s =>
    match inputs with
    | [] => ⟨.ok ended, [], s⟩
    | first :: others => ((prepare others s).map fun a => go a first).after first) unbounded

end TupleStream

/-! ## On a worker -/

mutual

/-- A stream that runs on the worker of a group: a crash there shows as the loss of the worker. Here the
worker pulls when its consumer does. One that pulls ahead of it is `TupleStream.ahead`, and the two are
told apart only by results of sub-queries or tables that change beside the worker. -/
def TupleStream.onWorker (group : GroupId) : TupleStream → TupleStream
  | .ended => .ended
  | .of pull => .of fun s => (pull s).onWorker group

def Reply.onWorker (group : GroupId) : Reply → Reply
  | .row t s rest => .row t s (rest.onWorker group)
  | .finished s _ => .finished s .ended
  | .failed e s => .failed e s
  | .crashed _ s _ => .failed (.workerLost group) s

end

end QueryEngine
