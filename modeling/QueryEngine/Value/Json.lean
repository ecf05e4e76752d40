import QueryEngine.Value.Basic
import QueryEngine.Column
import QueryEngine.Decimal.Layout
import QueryEngine.Json.Reader

/-!
# Values and columns as JSON

A value is an object with its kind under `t` and its content under `v`. Numbers that are not
finite are written as null and cannot be read back.
-/

set_option autoImplicit false

namespace QueryEngine

namespace Json

def ofSingle (x : Binary32) : Json :=
  if x.isFinite then .number (NumberLayout.jsonSingle.format x) else .null

def ofDouble (x : Binary64) : Json :=
  if x.isFinite then .number (NumberLayout.jsonDouble.format x) else .null

def ofNat (n : Nat) : Json := .number (toString n)

/-! ## Reading scalars -/

def bool? : Json → Option Bool
  | bool b => some b
  | _ => none

def string? : Json → Option String
  | text s => some s
  | _ => none

def unit? : Json → Option Unit
  | null => some ()
  | _ => none

def reading? : Json → Option NumberReading
  | number literal => readNumber literal
  | _ => none

/-- An integer in the range of a signed word; real numbers are refused. -/
def long? (j : Json) : Option Int64 := do
  match ← j.reading? with
  | .count n => if (n.toNat : Int) ≤ Int64.maxValue.toInt then some (Int64.ofNat n.toNat) else none
  | .negative n => some n
  | .real _ => none

def double? (j : Json) : Option Binary64 := do
  match ← j.reading? with
  | .count n => some (.ofNat n.toNat)
  | .negative n => some (.ofInt n.toInt)
  | .real x => some x

def single? (j : Json) : Option Binary32 := do
  match ← j.reading? with
  | .count n => some (.ofNat n.toNat)
  | .negative n => some (.ofInt n.toInt)
  | .real x => some x.narrow

def list? {α : Type} (item? : Json → Option α) : Json → Option (List α)
  | array items => items.mapM item?
  | _ => none

end Json

namespace Value

def jsonKind : Value → String
  | null => "Null"
  | bool _ => "Bool"
  | long _ => "Long"
  | float _ => "Float"
  | double _ => "Double"
  | text _ => "String"
  | floatVector _ => "FloatVector"
  | doubleVector _ => "DoubleVector"

/-- The content of a value; null has none. -/
def jsonContent? : Value → Option Json
  | null => none
  | bool b => some (.bool b)
  | long n => some (.number (toString n.toInt))
  | float x => some (.ofSingle x)
  | double x => some (.ofDouble x)
  | text s => some (.text s)
  | floatVector xs => some (.array (xs.map Json.ofSingle))
  | doubleVector xs => some (.array (xs.map Json.ofDouble))

def toJson (v : Value) : Json :=
  let tag := ("t", Json.text v.jsonKind)
  match v.jsonContent? with
  | some content => .object [tag, ("v", content)]
  | none => .object [tag]

/-- The value of the given kind with the given content. -/
def ofContent? (kind : String) (content : Json) : Option Value :=
  match kind with
  | "Null" => content.unit?.map fun _ => null
  | "Bool" => content.bool?.map bool
  | "Long" => content.long?.map long
  | "Float" => content.single?.map float
  | "Double" => content.double?.map double
  | "String" => content.string?.map text
  | "FloatVector" => (content.list? Json.single?).map floatVector
  | "DoubleVector" => (content.list? Json.double?).map doubleVector
  | _ => none

/-- The only field with this key; `none` when there are several. -/
def onlyField? (fields : List (String × Json)) (key : String) : Option (Option Json) :=
  match fields.filter (·.1 == key) with
  | [] => some none
  | [(_, value)] => some (some value)
  | _ => none

/-- The kind in an object: its name, or the name as the only key of an object, with null. -/
def kindOf? : Json → Option String
  | .text kind => some kind
  | .object [(kind, .null)] => some kind
  | _ => none

/-- Reads an object with a kind and a content in any order, other fields aside, or an array of the
kind's name and the content. Null needs no content in an object. -/
def ofJson? : Json → Option Value
  | .object fields => do
    let kind ← (← onlyField? fields "t") >>= kindOf?
    match ← onlyField? fields "v" with
    | some content => ofContent? kind content
    | none => if kind = "Null" then some null else none
  | .array [kind, content] => do ofContent? (← kind.string?) content
  | _ => none

/-- The value a text holds. -/
def parse? (s : String) : Option Value := Json.parse? (.fields ["t", "v"]) s >>= ofJson?

end Value

namespace ColumnType

def toJson : ColumnType → Json
  | boolean => .object [("type", .text "boolean")]
  | long => .object [("type", .text "long")]
  | float => .object [("type", .text "float")]
  | double => .object [("type", .text "double")]
  | text => .object [("type", .text "string")]
  | floatVector dims => .object [("type", .text "float_vector"), ("dims", .ofNat dims)]
  | doubleVector dims => .object [("type", .text "double_vector"), ("dims", .ofNat dims)]

end ColumnType

def Column.toJson (c : Column) : Json :=
  .object [("name", .text c.name), ("ty", c.type.toJson), ("nullable", .bool c.nullable)]

end QueryEngine
