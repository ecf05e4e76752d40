import QueryEngine.Execution.Merging
import QueryEngine.Execution.Spill

/-!
# Sorts

Every sort is stable. A sort in memory reads its whole input; a spilling sort keeps sorted runs of
bounded length and merges them; a sort with a limit keeps no more tuples than the limit reaches.
-/

set_option autoImplicit false

namespace QueryEngine

namespace TupleStream

/-- Sorts tuples and counts the sort. -/
def sorted (order : SortOrder) (ts : List Tuple) (s : RunState) : Outcome (List Tuple) :=
  match order.sortTuples ts with
  | .ok ts => (.ok ts, s.count .sort)
  | .error c => (.error (.crashed c), s)

/-- Sorts a stream in memory. -/
def sort (order : SortOrder) (t : TupleStream) : TupleStream :=
  deferred fun s =>
    match t.collect s with
    | (.error f, s) => (.error f, s)
    | (.ok ts, s) => Outcome.map ofList (sorted order ts s)

/-! ## With a limit -/

/-- Keeps the least tuples that fit, in order. -/
def keepLeast (order : SortOrder) (capacity : Nat) (kept : List Tuple) (t : Tuple) :
    Except Crash (List Tuple) := do
  if kept.length < capacity then order.insert t kept
  else
    match kept.getLast? with
    | some worst =>
      if (← order.compareTuples t worst) = .lt then order.insert t kept.dropLast else return kept
    | none => return kept

/-- Sorts a stream and applies a limit. A limit that reaches no row reads nothing. -/
def limitingSort (order : SortOrder) (bounds : RowLimit) (t : TupleStream) : TupleStream :=
  deferred fun s =>
    if bounds.reach = 0 then (.ok ended, s)
    else
      match t.reduce (fun kept u => Crash.lifted (keepLeast order bounds.reach.toNat kept u)) [] s
      with
      | (.error f, s) => (.error f, s)
      | (.ok kept, s) => (.ok (ofList (kept.drop bounds.skip.toNat)), s.count .sort)

/-! ## With runs on storage -/

/-- Sorted runs on storage and the tuples that wait for the next run. -/
structure SpillState (ρ : Type) where
  runs : List ρ
  waiting : List Tuple

namespace SpillState

variable {ρ : Type}

/-- Sorts the waiting tuples and writes them as a run. -/
def spill (order : SortOrder) (canSpill : Bool) (write : List Tuple → ρ) (a : SpillState ρ)
    (s : RunState) : Outcome (SpillState ρ) :=
  match sorted order a.waiting s with
  | (.error f, s) => (.error f, s)
  | (.ok run, s) =>
    if canSpill then (.ok ⟨a.runs ++ [write run], []⟩, s) else (.error (.error .spill), s)

/-- Takes a further tuple; a full chunk is spilled. -/
def add (order : SortOrder) (chunk : Nat) (canSpill : Bool) (write : List Tuple → ρ)
    (a : SpillState ρ) (t : Tuple) (s : RunState) : Outcome (SpillState ρ) :=
  let a := { a with waiting := a.waiting ++ [t] }
  if chunk ≤ a.waiting.length then a.spill order canSpill write s else (.ok a, s)

/-- The tuples of the runs in order. -/
def merge (order : SortOrder) (read : ρ → TupleStream) (a : SpillState ρ) (s : RunState) :
    Outcome TupleStream :=
  let started := startMerge order (a.runs.map read) s
  (started.result, started.state)

/-- The tuples in order once all have been taken. -/
def finish (order : SortOrder) (canSpill : Bool) (write : List Tuple → ρ) (read : ρ → TupleStream)
    (a : SpillState ρ) (s : RunState) : Outcome TupleStream :=
  if a.runs.isEmpty then Outcome.map ofList (sorted order a.waiting s)
  else if a.waiting.isEmpty then a.merge order read s
  else
    match a.spill order canSpill write s with
    | (.error f, s) => (.error f, s)
    | (.ok a, s) => a.merge order read s

end SpillState

/-- Sorts a stream with at most `chunk` tuples, or one, in memory. -/
def sortByRuns {ρ : Type} (order : SortOrder) (chunk : Nat) (canSpill : Bool)
    (write : List Tuple → ρ) (read : ρ → TupleStream) (t : TupleStream) : TupleStream :=
  deferred fun s =>
    match t.consume (SpillState.add order (max chunk 1) canSpill write) ⟨[], []⟩ s with
    | (.error f, s) => (.error f, s)
    | (.ok a, s) => a.finish order canSpill write read s

/-- Sorts a stream with runs that are files of lines. -/
def externalSort (format : LineFormat) (order : SortOrder) (chunk : Nat) (canSpill : Bool)
    (cs : List Column) (t : TupleStream) : TupleStream :=
  t.sortByRuns order chunk canSpill format.writeRun (format.readRun cs)

end TupleStream

end QueryEngine
