import QueryEngine.Execution.Stream
import QueryEngine.Plan.Operator

/-!
# Writes

Streams that change a table and emit nothing. Every row written counts as affected.
-/

set_option autoImplicit false

namespace QueryEngine

namespace TupleStream

/-- The values of assignments. -/
def resolveValues (values : Assignments) (u : Option Tuple) (s : RunState) :
    Except Failure (List Value) :=
  s.bindings.resolveEach u (values.map (·.2))

/-- Inserts one row. -/
def insert (h : TableHandle) (values : Assignments) : TupleStream :=
  deferred fun s =>
    match resolveValues values none s with
    | .error f => (.error f, s)
    | .ok vs =>
      match (s.table h).insert (values.map (·.1)) vs with
      | .error e => (.error (.error (.storage e)), s)
      | .ok (_, table) => (.ok ended, (s.setTable h table).affect)

/-- Updates the row of one tuple with values resolved on the tuple. -/
def updateRow (h : TableHandle) (values : Assignments) (u : Tuple) (s : RunState) : Outcome Unit :=
  match resolveValues values (some u) s with
  | .error f => (.error f, s)
  | .ok vs =>
    match (s.table h).update u.row (values.map (·.1)) vs with
    | (table, .error e) => (.error (.error (.storage e)), s.setTable h table)
    | (table, .ok ()) => (.ok (), (s.setTable h table).affect)

/-- Deletes the row of one tuple, if it still exists. -/
def deleteRow (h : TableHandle) (u : Tuple) (s : RunState) : Outcome Unit :=
  match (s.table h).delete u.row with
  | (table, true) => (.ok (), (s.setTable h table).affect)
  | (table, false) => (.ok (), s.setTable h table)

/-- Writes once for every tuple, as each is pulled. -/
def writeEach (write : Tuple → RunState → Outcome Unit) (t : TupleStream) : TupleStream :=
  t.transduce (.stateless fun u s =>
    let written := write u s
    (.ofResult written.1 fun () => .drop (), written.2)) ()

def update (h : TableHandle) (values : Assignments) (t : TupleStream) : TupleStream :=
  t.writeEach (updateRow h values)

def delete (h : TableHandle) (t : TupleStream) : TupleStream := t.writeEach (deleteRow h)

end TupleStream

end QueryEngine
