import QueryEngine.Execution.Stream
import QueryEngine.Random.ChaCha

/-!
# Sources

Streams that read a table.
-/

set_option autoImplicit false

namespace QueryEngine

namespace TupleStream

/-- The further rows of a cursor; it answers at most `pulls` pulls. At its end it looks again when it
is pulled again. -/
def ofCursor (h : TableHandle) : Nat → Cursor → TupleStream
  | 0, _ => ended
  | pulls + 1, c => of fun s =>
    match c.next? (s.table h) with
    | none => .finished s (ofCursor h pulls c)
    | some (t, c, table) => .row t (s.setTable h table) (ofCursor h pulls c)

/-- A stream that fails once it has answered a number of pulls; the end is an answer too. -/
def failingAfter (results : Nat) (reason : String) (t : TupleStream) : TupleStream :=
  t.transduce
    { isReady := fun left =>
        if left = 0 then .error (.storage (.unavailable reason)) else .ok true
      step := fun left u s => (.emit u (left - 1), s)
      atEnd := fun left => left - 1 } results

/-- The rows of a partition of a table. -/
def scan (h : TableHandle) (s : Store) (cs : List Column) (partition partitions : Nat) :
    Except Failure TupleStream :=
  match (h.table s).scan cs partition partitions with
  | .error e => .error (.error (.storage e))
  | .ok cursor =>
    let rows := ofCursor h unbounded cursor
    match h.faults.scanFailure with
    | none => .ok rows
    | some (results, reason) => .ok (rows.failingAfter results reason)

/-- Keeps each tuple with a probability, by one number drawn for each. -/
def sample (p : Binary32) (seed : UInt64) (t : TupleStream) : TupleStream :=
  t.transduce (.steady fun random u s =>
    let (drawn, random) := random.nextUnit
    (if drawn.lt p then .emit u random else .drop random, s)) (RandomStream.ofSeed seed)

/-- The number of rows that the storage reports, as a single tuple. -/
def rowCount (h : TableHandle) (cs : List Column) : TupleStream :=
  deferred fun s =>
    match h.countRows s.store with
    | .error e => (.error (.error e), s)
    | .ok n => (.ok (ofList [⟨syntheticRow, cs, [.long n.toInt64]⟩]), s)

end TupleStream

end QueryEngine
