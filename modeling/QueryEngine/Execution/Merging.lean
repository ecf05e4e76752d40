import QueryEngine.Execution.Order
import QueryEngine.Execution.Pipeline

/-!
# Operators on several streams

Rows are told apart bit by bit in the layout of the first input.
-/

set_option autoImplicit false

namespace QueryEngine

namespace TupleStream

/-- A tuple in the layout `cs`. -/
def align (cs : List Column) (u : Tuple) : Except Crash Tuple :=
  if u.columns = cs then .ok u else u.project cs

/-- The tuples of all streams in the layout `cs`. -/
def merge (cs : List Column) (inputs : List TupleStream) : TupleStream :=
  (concat inputs).changeEach (align cs)

/-- The first tuple of each row of values. -/
def distinct (t : TupleStream) : TupleStream :=
  t.transduce (.steady fun (seen : List (List Value)) u s =>
    (if u.values ∈ seen then .drop seen else .emit u (u.values :: seen), s)) []

def union (distinct : Bool) (cs : List Column) (inputs : List TupleStream) : TupleStream :=
  if distinct then (merge cs inputs).distinct else merge cs inputs

/-! ## Intersections -/

/-- The rows of values of every stream, stream by stream. -/
def rowsOf (cs : List Column) : List TupleStream → RunState → Attempt (List (List (List Value)))
  | [], s => ⟨.ok [], [], s⟩
  | t :: rest, s =>
    let read := t.drain (fun rows u s =>
      ((Crash.lifted (align cs u)).map fun u => u.values :: rows, s)) [] s
    match read.result with
    | .error f => ⟨.error f, read.rest :: rest, read.state⟩
    | .ok rows => ((rowsOf cs rest read.state).map (rows :: ·)).after read.rest

/-- The first tuple of each row of values that is in all the sets. -/
def within (sets : List (List (List Value))) (t : TupleStream) : TupleStream :=
  t.transduce (.steady fun (seen : List (List Value)) u s =>
    (if sets.all (u.values ∈ ·) && u.values ∉ seen then .emit u (u.values :: seen)
      else .drop seen, s)) []

/-- The rows of the first stream that are in all others, which are read first. -/
def intersect (cs : List Column) : List TupleStream → TupleStream :=
  afterOthers (rowsOf cs) fun sets first => (first.changeEach (align cs)).within sets

/-! ## Sub-queries -/

/-- The column that a predicate first reads of a sub-query. -/
def columnRead? (p : Predicate) (group : GroupId) : Option Column :=
  p.subqueries.findSome? fun b =>
    match b with
    | .subquery g c => if g = group then some c else none
    | _ => none

/-- The value that a tuple of a sub-query adds to its results. -/
def resultOf (column : Option Column) (u : Tuple) : Except Crash (Option Value) :=
  match column with
  | some c => u.get? c
  | none => .ok u.values.head?

/-- Adds the value of a tuple to the results of a sub-query. -/
def bindTuple (group : GroupId) (column : Option Column) (u : Tuple) (s : RunState) :
    Outcome Unit :=
  match resultOf column u with
  | .error c => (.error (.crashed c), s)
  | .ok none => (.ok (), s)
  | .ok (some v) => (.ok (), { s with bindings := s.bindings.append group v })

/-- Reads sub-queries to their ends and binds their results. -/
def bindSubqueries (p : Predicate) : List (GroupId × TupleStream) → RunState → Attempt Unit
  | [], s => ⟨.ok (), [], s⟩
  | (group, t) :: rest, s =>
    let read := t.drain (fun () => bindTuple group (columnRead? p group)) ()
      { s with bindings := s.bindings.openSubquery group }
    match read.result with
    | .error f => ⟨.error f, read.rest :: rest.map (·.2), read.state⟩
    | .ok () => (bindSubqueries p rest read.state).after read.rest

/-- Filters the first stream by a predicate on the results of the others, which are the sub-queries
of the given groups and are read first. -/
def subselect (p : Predicate) (groups : List GroupId) : List TupleStream → TupleStream :=
  afterOthers (fun others => bindSubqueries p (groups.zip others)) fun () first => first.filter p

end TupleStream

/-! ## Ordered merges -/

mutual

/-- Several streams that are pulled by number. -/
inductive StreamBundle where
  | of (pull : Nat → RunState → BundleReply)

/-- The answer to a pull on one of the streams. -/
inductive BundleReply where
  | row (t : Tuple) (s : RunState) (rest : StreamBundle)
  | finished (s : RunState) (rest : StreamBundle)
  | failed (e : ExecutionError) (s : RunState)
  | crashed (c : Crash) (s : RunState) (rest : StreamBundle)
  /-- There is no stream of this number, or nothing was left of it before. -/
  | absent (s : RunState)

end

namespace StreamBundle

def empty : StreamBundle := of fun _ s => .absent s

end StreamBundle

mutual

/-- Puts an answer to pulls on a first stream in front of a bundle. -/
def StreamBundle.shift (first : RunState → StreamBundle → BundleReply) :
    StreamBundle → StreamBundle
  | .of pull => .of fun i s =>
    match i with
    | 0 => first s (.of pull)
    | i + 1 => (pull i s).shift first

def BundleReply.shift (first : RunState → StreamBundle → BundleReply) : BundleReply → BundleReply
  | .row t s rest => .row t s (rest.shift first)
  | .finished s rest => .finished s (rest.shift first)
  | .failed e s => .failed e s
  | .crashed c s rest => .crashed c s (rest.shift first)
  | .absent s => .absent s

end

mutual

/-- A bundle with a further stream in front. -/
def TupleStream.bundle : TupleStream → StreamBundle → StreamBundle
  | .ended => StreamBundle.shift fun s others => .finished s (others.shift fun s _ => .absent s)
  | .of pull => StreamBundle.shift fun s others => (pull s).bundle others

def Reply.bundle : Reply → StreamBundle → BundleReply
  | .row t s rest, others => .row t s (rest.bundle others)
  | .finished s rest, others => .finished s (rest.bundle others)
  | .failed e s, _ => .failed e s
  | .crashed c s rest, others => .crashed c s (rest.bundle others)

end

namespace StreamBundle

def ofList (streams : List TupleStream) : StreamBundle := streams.foldr TupleStream.bundle empty

/-- The next tuples of the streams, in ascending order; the earlier stream first among equals. -/
abbrev Heads := List (Nat × Tuple)

/-- Adds the next tuple of a stream. -/
def addHead (order : SortOrder) (i : Nat) (t : Tuple) : Heads → Except Crash Heads
  | [] => .ok [(i, t)]
  | (j, u) :: rest => do
    match ← order.compareTuples t u with
    | .lt => return (i, t) :: (j, u) :: rest
    | .eq =>
      if i < j then return (i, t) :: (j, u) :: rest
      else return (j, u) :: (← addHead order i t rest)
    | .gt => return (j, u) :: (← addHead order i t rest)

end StreamBundle

mutual

/-- Emits the least of the next tuples, after the next one of its stream has been pulled. It is lost
in a crash on the way; a tuple that was pulled then is kept. -/
def StreamBundle.merged (order : SortOrder) : StreamBundle → StreamBundle.Heads → TupleStream
  | .of pull, heads => .of fun s =>
    match heads with
    | [] => .finished s .ended
    | (i, t) :: rest => (pull i s).mergedAfter order i t rest

def BundleReply.mergedAfter (order : SortOrder) (i : Nat) (t : Tuple) :
    BundleReply → StreamBundle.Heads → Reply
  | .row u s rest, heads =>
    match StreamBundle.addHead order i u heads with
    | .ok heads => .row t s (rest.merged order heads)
    | .error c => .crashed c s (rest.merged order (heads ++ [(i, u)]))
  | .finished s rest, heads => .row t s (rest.merged order heads)
  | .failed e s, _ => .failed e s
  | .crashed c s rest, heads => .crashed c s (rest.merged order heads)
  | .absent s, _ => .finished s .ended

end

namespace TupleStream

/-- Pulls every stream once and orders the tuples found. The streams are numbered from `i` on. -/
def firstTuples (order : SortOrder) (i : Nat) : List TupleStream → StreamBundle.Heads → RunState →
    Attempt StreamBundle.Heads
  | [], heads, s => ⟨.ok heads, [], s⟩
  | t :: rest, heads, s =>
    match t.pull s with
    | .row u s left =>
      match StreamBundle.addHead order i u heads with
      | .ok heads => (firstTuples order (i + 1) rest heads s).after left
      | .error c => ⟨.error (.crashed c), left :: rest, s⟩
    | .finished s left => (firstTuples order (i + 1) rest heads s).after left
    | .failed e s => ⟨.error (.error e), t :: rest, s⟩
    | .crashed c s left => ⟨.error (.crashed c), left :: rest, s⟩

/-- The tuples of sorted streams in order, once every stream has been pulled. -/
def startMerge (order : SortOrder) (inputs : List TupleStream) (s : RunState) :
    Attempt TupleStream :=
  let found := firstTuples order 0 inputs [] s
  found.map fun heads => (StreamBundle.ofList found.inputs).merged order heads

/-- The tuples of sorted streams in order. Every stream is pulled once before the first tuple. -/
def mergeSorted (order : SortOrder) : List TupleStream → TupleStream :=
  retrying (startMerge order) unbounded

end TupleStream

end QueryEngine
