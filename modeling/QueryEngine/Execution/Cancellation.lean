import QueryEngine.Execution.Result

/-!
# Cancellation

A token is a flag that all its copies share; it is set once and never cleared. A run looks at the
token of its query and at a token of its own that it got when it was started. It checks both before it
pulls, and its end sets its own, so that what still runs below it stops. What callers and other
threads do to a run is a list of actions.
-/

set_option autoImplicit false

namespace QueryEngine

/-- A token is known by its number. -/
abbrev CancelToken := Nat

/-- The flags of all tokens. -/
structure CancelFlags where
  isSet : CancelToken → Bool
  /-- The first token that nobody has. -/
  unused : CancelToken

namespace CancelFlags

def cancel (flags : CancelFlags) (token : CancelToken) : CancelFlags :=
  { flags with isSet := fun other => other == token || flags.isSet other }

/-- The flags once the first unused token has been given away. -/
def grant (flags : CancelFlags) : CancelFlags :=
  ⟨fun token => token != flags.unused && flags.isSet token, flags.unused + 1⟩

end CancelFlags

/-- The tokens that a run looks at. -/
structure CancelScope where
  query : CancelToken
  own : CancelToken
  apart : query ≠ own

namespace CancelScope

/-- The scope of a run with a token that nobody has yet. -/
def new (query : CancelToken) (flags : CancelFlags) (known : query < flags.unused) : CancelScope :=
  ⟨query, flags.unused, Nat.ne_of_lt known⟩

def isCancelled (scope : CancelScope) (flags : CancelFlags) : Bool :=
  flags.isSet scope.own || flags.isSet scope.query

/-- Stops the run without touching the token of its query. -/
def cancel (scope : CancelScope) (flags : CancelFlags) : CancelFlags := flags.cancel scope.own

end CancelScope

/-- A result among the flags and the tables that it shares with others. -/
structure Session where
  result : ResultStream
  scope : CancelScope
  flags : CancelFlags
  engine : EngineState

namespace Session

def hasEnded (x : Session) : Bool := x.result.source.isNone

def isCancelled (x : Session) : Bool := x.scope.isCancelled x.flags

/-- Pulls for the next tuple. -/
def next (x : Session) : Pulled × Session :=
  let asked := { x.result with cancelled := x.flags.isSet x.scope.own }
  let (answer, result, engine) := asked.next (x.flags.isSet x.scope.query) x.engine
  let flags := if result.source.isNone then x.scope.cancel x.flags else x.flags
  (answer, { x with result := result, flags := flags, engine := engine })

/-- Starts a plan for a query with the token `query`. -/
def start (limits : RunLimits) (t : PhysicalPlan) (q : QueryContext) (query : CancelToken)
    (flags : CancelFlags) (known : query < flags.unused) (e : EngineState) :
    Fallible QueryError Session :=
  let started := ResultStream.start limits t { q with cancelled := flags.isSet query } e
  started.1.map fun r => ⟨r, .new query flags known, flags.grant, started.2⟩

/-- What is done to a run. -/
inductive Action where
  /-- A call for the next tuple. What other threads do meanwhile may change what the operators do. -/
  | next (meanwhile : TupleStream → TupleStream)
  /-- A request for the end of the run. -/
  | cancel
  | cancelQuery
  /-- Something else happens to the tables and the counters. -/
  | elsewhere (change : EngineState → EngineState)

namespace Action

def isNext : Action → Bool
  | next _ => true
  | _ => false

def isCancelOwn : Action → Bool
  | cancel => true
  | _ => false

def isCancelQuery : Action → Bool
  | cancelQuery => true
  | _ => false

/-- Whether an action asks for the end of the run, of this one alone or of its query. -/
def isCancel (a : Action) : Bool := a.isCancelOwn || a.isCancelQuery

/-- What an action that does not pull makes of the tables and the counters. -/
def change : Action → EngineState → EngineState
  | elsewhere f => f
  | _ => id

end Action

/-- The run with other operators, if it has not ended. -/
def withOperators (x : Session) (f : TupleStream → TupleStream) : Session :=
  { x with result := { x.result with source := x.result.source.map f } }

/-- Whether a call comes back with it; a call that crashes does not come back. -/
def isAnswer : Pulled → Bool
  | .failed (.crashed _) => false
  | _ => true

/-- What an action is answered with and leaves. -/
def act (x : Session) : Action → List Pulled × Session
  | .next meanwhile =>
    let (answer, x) := (x.withOperators meanwhile).next
    ([answer].filter isAnswer, x)
  | .cancel => ([], { x with flags := x.scope.cancel x.flags })
  | .cancelQuery => ([], { x with flags := x.flags.cancel x.scope.query })
  | .elsewhere change => ([], { x with engine := change x.engine })

/-- The answers to a list of actions, and what they leave. -/
def run (x : Session) : List Action → List Pulled × Session
  | [] => ([], x)
  | a :: rest =>
    let (answers, x) := x.act a
    let (later, x) := x.run rest
    (answers ++ later, x)

end Session

end QueryEngine
