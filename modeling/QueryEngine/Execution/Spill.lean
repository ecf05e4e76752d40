import QueryEngine.Execution.Stream
import QueryEngine.Value.Json

/-!
# Runs on storage

A sorted run is written to a file of its own, a line for each tuple. A line holds the row and the
values of a tuple, not its columns, which are those of the node. Floating-point numbers travel as
their bit patterns, so that a line of JSON can hold every one of them. A run is read line by line as
its tuples are asked for.
-/

set_option autoImplicit false

namespace QueryEngine

/-- A value as it is written. -/
inductive SpilledValue where
  | null
  | bool (b : Bool)
  | long (n : Int64)
  | float (bits : UInt32)
  | double (bits : UInt64)
  | text (s : String)
  | floatVector (bits : List UInt32)
  | doubleVector (bits : List UInt64)
deriving DecidableEq

namespace SpilledValue

def ofValue : Value → SpilledValue
  | .null => null
  | .bool b => bool b
  | .long n => long n
  | .float x => float ⟨x.bits⟩
  | .double x => double ⟨x.bits⟩
  | .text s => text s
  | .floatVector xs => floatVector (xs.map fun x => ⟨x.bits⟩)
  | .doubleVector xs => doubleVector (xs.map fun x => ⟨x.bits⟩)

def toValue : SpilledValue → Value
  | null => .null
  | bool b => .bool b
  | long n => .long n
  | float bits => .float ⟨bits.toBitVec⟩
  | double bits => .double ⟨bits.toBitVec⟩
  | text s => .text s
  | floatVector bits => .floatVector (bits.map fun b => ⟨b.toBitVec⟩)
  | doubleVector bits => .doubleVector (bits.map fun b => ⟨b.toBitVec⟩)

def toJson : SpilledValue → Json
  | null => .object [("t", .text "Null")]
  | bool b => .object [("t", .text "Bool"), ("v", .bool b)]
  | long n => .object [("t", .text "Long"), ("v", .number (toString n.toInt))]
  | float bits => .object [("t", .text "Float"), ("v", .ofNat bits.toNat)]
  | double bits => .object [("t", .text "Double"), ("v", .ofNat bits.toNat)]
  | text s => .object [("t", .text "String"), ("v", .text s)]
  | floatVector bits =>
    .object [("t", .text "FloatVector"), ("v", .array (bits.map fun b => .ofNat b.toNat))]
  | doubleVector bits =>
    .object [("t", .text "DoubleVector"), ("v", .array (bits.map fun b => .ofNat b.toNat))]

/-- A count that is less than `bound`. -/
def count? (bound : Nat) (j : Json) : Option Nat := do
  match ← j.reading? with
  | .count n => if n.toNat < bound then some n.toNat else none
  | _ => none

def float? (j : Json) : Option UInt32 := (count? UInt32.size j).map .ofNat

def double? (j : Json) : Option UInt64 := (count? UInt64.size j).map .ofNat

/-- The value of the given kind with the given content. -/
def ofContent? (kind : String) (content : Json) : Option SpilledValue :=
  match kind with
  | "Null" => content.unit?.map fun _ => null
  | "Bool" => content.bool?.map bool
  | "Long" => content.long?.map long
  | "Float" => (float? content).map float
  | "Double" => (double? content).map double
  | "String" => content.string?.map text
  | "FloatVector" => (content.list? float?).map floatVector
  | "DoubleVector" => (content.list? double?).map doubleVector
  | _ => none

def ofJson? : Json → Option SpilledValue
  | .object fields => do
    let kind ← (← Value.onlyField? fields "t") >>= Value.kindOf?
    match ← Value.onlyField? fields "v" with
    | some content => ofContent? kind content
    | none => if kind = "Null" then some null else none
  | .array [kind, content] => do ofContent? (← kind.string?) content
  | _ => none

end SpilledValue

/-- A tuple as it is written. -/
structure SpilledTuple where
  row : RowId
  values : List SpilledValue
deriving DecidableEq

namespace SpilledTuple

def ofTuple (t : Tuple) : SpilledTuple := ⟨t.row, t.values.map SpilledValue.ofValue⟩

def toTuple (cs : List Column) (r : SpilledTuple) : Tuple := ⟨r.row, cs, r.values.map SpilledValue.toValue⟩

def toJson (r : SpilledTuple) : Json :=
  .object [("row_id", .number (toString r.row)),
    ("values", .array (r.values.map SpilledValue.toJson))]

def ofJson? : Json → Option SpilledTuple
  | .object fields => do
    let row ← (← Value.onlyField? fields "row_id") >>= Json.long?
    let values ← (← Value.onlyField? fields "values") >>= Json.list? SpilledValue.ofJson?
    return ⟨row.toInt, values⟩
  | .array [row, values] => do
    return ⟨(← row.long?).toInt, ← values.list? SpilledValue.ofJson?⟩
  | _ => none

end SpilledTuple

/-- How what is written looks on a line, and how a line is read. -/
structure LineFormat where
  Line : Type
  write : SpilledTuple → Line
  read : Line → Except ExecutionError SpilledTuple

namespace LineFormat

/-- Lines that are what is written. -/
def plain : LineFormat := ⟨SpilledTuple, id, .ok⟩

/-- Lines of JSON. -/
def json : LineFormat where
  Line := String
  write r := r.toJson.render
  read line :=
    match Json.parse? .everything line >>= SpilledTuple.ofJson? with
    | some r => .ok r
    | none => .error .spill

variable (format : LineFormat)

/-- The lines of a run. -/
def writeRun (run : List Tuple) : List format.Line := run.map fun t => format.write (.ofTuple t)

/-- The tuples of a run in the layout `cs`. -/
def readRun (cs : List Column) : List format.Line → TupleStream
  | [] => .ended
  | line :: rest => .of fun s =>
    match format.read line with
    | .ok r => .row (r.toTuple cs) s (readRun cs rest)
    | .error e => .failed e s

end LineFormat

end QueryEngine
