import QueryEngine.Execution.Stream
import QueryEngine.Plan.Operator

/-!
# Operators on one stream
-/

set_option autoImplicit false

namespace QueryEngine

namespace TupleStream

/-- The tuples for which a predicate holds. Evaluations that succeed are counted. -/
def filter (p : Predicate) (t : TupleStream) : TupleStream :=
  t.transduce (.stateless fun u s =>
    match p.holds s.bindings u with
    | .error f => (.fail f, s)
    | .ok keep => (if keep then .emit u () else .drop (), s.count .filter)) ()

/-- Changes every tuple by a step that may crash. -/
def changeEach (change : Tuple → Except Crash Tuple) (t : TupleStream) : TupleStream :=
  t.transduce (.stateless fun u s => (.ofResult (Crash.lifted (change u)) (.emit · ()), s)) ()

/-- Adds the result of a function to every tuple. -/
def apply (f : Function) (arguments : List Binding) (cs : List Column) (t : TupleStream) :
    TupleStream :=
  t.transduce (.stateless fun u s =>
    (.ofResult ((s.bindings.resolveEach (some u) arguments).bind f.invoke) fun v =>
      .emit (u.extend cs v) (), s)) ()

/-- A tuple with the columns `cs`; what it lacks is taken from another one. -/
def complete (cs : List Column) (u other : Tuple) : Except Crash Tuple :=
  (cs.mapM fun c => do
    match ← u.get? c with
    | some v => return v
    | none => other.getOrNull c).map fun values => ⟨u.row, cs, values⟩

/-- Adds columns that are read by row number. Tuples whose row is gone are dropped. -/
def fetch (h : TableHandle) (wanted cs : List Column) (t : TupleStream) : TupleStream :=
  t.transduce (.stateless fun u s =>
    match wanted.filterM fun c => return (← u.get? c).isNone with
    | .error c => (.fail (.crashed c), s)
    | .ok [] => (.ofResult (Crash.lifted (u.project cs)) (.emit · ()), s)
    | .ok missing =>
      match (s.table h).read u.row missing with
      | .error e => (.fail (.error (.storage e)), s)
      | .ok (none, table) => (.drop (), s.setTable h table)
      | .ok (some found, table) =>
        (.ofResult (Crash.lifted (complete cs u found)) (.emit · ()), s.setTable h table)) ()

/-- Lays every tuple out as `cs`. -/
def select (cs : List Column) (t : TupleStream) : TupleStream :=
  t.changeEach fun u => u.project cs

/-- Drops the first tuples and ends after a number of further ones, without pulling for more. -/
def limit (bounds : RowLimit) (t : TupleStream) : TupleStream :=
  t.transduce
    { isReady := fun (left : Nat × Nat) => .ok (left != (0, 0))
      step := fun (skip, room) u s =>
        (if 0 < skip then .drop (skip - 1, room) else .emit u (0, room - 1), s)
      atEnd := fun _ => (0, 0) }
    (bounds.skip.toNat, bounds.limit.toNat)

/-! ## Aggregates -/

/-- The value of a column, unless it is absent or null. -/
def present? (c : Column) (u : Tuple) : Except Crash (Option Value) :=
  (u.get? c).map fun v => v.filter fun v => !v.isNull

/-- The better of two values; of equals the first one. Anything is better than null. -/
def better (wanted : Ordering) (best v : Value) : Value :=
  if best.isNull || v.sortCompare best == wanted then v else best

/-- The best value of a column. -/
def best (wanted : Ordering) (c : Column) (t : TupleStream) (s : RunState) : Outcome Value :=
  t.reduce (fun best u =>
    (Crash.lifted (present? c u)).map fun v => (v.map (better wanted best)).getD best) .null s

/-- Adds a further number to a sum and counts it. -/
def addNumber (c : Column) (total : Binary64 × Nat) (u : Tuple) :
    Except Failure (Binary64 × Nat) := do
  match ← Crash.lifted (present? c u) with
  | none => return total
  | some v =>
    match v.number? with
    | some x => return (total.1 + x, total.2 + 1)
    | none => throw (.error (.typeMismatch "sum" "number" v.kindName))

/-- The sum of a column's numbers and how many there are. -/
def total (c : Column) (t : TupleStream) (s : RunState) : Outcome (Binary64 × Nat) :=
  t.reduce (addNumber c) (.zero, 0) s

/-- Whether a stream has a tuple; no more than one is pulled. -/
def hasTuple (t : TupleStream) (s : RunState) : Outcome Bool :=
  match t.pull s with
  | .row _ s _ => (.ok true, s)
  | .finished s _ => (.ok false, s)
  | .failed e s => (.error (.error e), s)
  | .crashed c s _ => (.error (.crashed c), s)

/-- The value of an aggregate over a stream. -/
def aggregate (p : Projection) (t : TupleStream) (s : RunState) : Outcome Value :=
  match p with
  | .select _ => (.error (.error (.storage .notAggregate)), s)
  | .count =>
    Outcome.map (fun n : Nat => .long (Int64.ofNat n)) (t.reduce (fun n _ => .ok (n + 1)) 0 s)
  | .nonempty => Outcome.map .bool (t.hasTuple s)
  | .min c => t.best .lt c s
  | .max c => t.best .gt c s
  | .sum c => Outcome.map (fun (x, n) => if n = 0 then .null else .double x) (t.total c s)
  | .mean c =>
    Outcome.map (fun (x, n) => if n = 0 then .null else .double (x / .ofNat n)) (t.total c s)

/-- A projection: of every tuple, or of the stream as a whole. -/
def project (p : Projection) (cs : List Column) (t : TupleStream) : TupleStream :=
  if p.isAggregate then
    deferred fun s =>
      Outcome.map (fun v => ofList [⟨syntheticRow, cs, [v]⟩]) (t.aggregate p s)
  else t.select cs

end TupleStream

end QueryEngine
