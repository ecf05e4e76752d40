import QueryEngine.Tuple
import QueryEngine.Decimal.Layout

/-!
# Errors

Errors are causes. Each has a text and a short code. Planning errors arise before any tuple is
produced, binding errors when a late-bound value is missing, execution errors while operators run.
A `Failure` is an error or a crash of a running operator.
-/

set_option autoImplicit false

namespace QueryEngine

/-- The number of a group, a stretch of operators that runs on one worker. -/
abbrev GroupId := UInt32

/-! ## Planning -/

/-- Why a cost policy is refused. -/
inductive PolicyFault where
  | outOfRange (factor : String) (value : Binary32)
  | weightSum (sum : Binary64)
deriving DecidableEq

def PolicyFault.message : PolicyFault → String
  | outOfRange factor value =>
    factor ++ " must be within [0, 1] (got " ++ NumberLayout.plain.format value ++ ")"
  | weightSum sum => "weights must sum to 1.0 (got " ++ NumberLayout.plain.format sum ++ ")"

/-- Why a tree of operators is refused as a whole. -/
inductive PlanFault where
  | sampleProbability (p : Binary32)
  | noSubqueries
  | empty
  | notFirst (operator : String)
  | noInput (operator : String)
  | differentColumns (operator : String)
deriving DecidableEq

def PlanFault.message : PlanFault → String
  | sampleProbability p =>
    "sample probability must be within (0, 1], got " ++ NumberLayout.plain.format p
  | noSubqueries => "filter_on_subselect requires at least one sub-query"
  | empty => "empty plan"
  | notFirst operator => s!"{operator} must be the first operator"
  | noInput operator => s!"{operator} requires an input"
  | differentColumns operator => s!"inputs of {operator} produce different columns"

inductive PlanningError where
  /-- A node reads a column that its inputs do not produce. -/
  | missingColumn (node column : String)
  /-- A name or a column that the table or input does not have. -/
  | unknownColumn (column context : String)
  /-- No function of this name takes these arguments. -/
  | incompatibleSignature (name : String) (arguments : List String)
  | invalidCostPolicy (fault : PolicyFault)
  /-- Rules still fired in the last of the allowed passes. -/
  | rewriteLimitExceeded (passes : Nat)
  | arity (node : String) (expected found : Nat)
  | invalidPlan (fault : PlanFault)
deriving DecidableEq

namespace PlanningError

def message : PlanningError → String
  | missingColumn node column =>
    s!"{node} requires column '{column}' which is not produced by its inputs"
  | unknownColumn column context => s!"unknown column '{column}' on {context}"
  | incompatibleSignature name arguments =>
    s!"no function '{name}' accepts (" ++ ", ".intercalate arguments ++ ")"
  | invalidCostPolicy fault => "invalid cost policy: " ++ fault.message
  | rewriteLimitExceeded passes => s!"rewrite did not reach a fixpoint within {passes} passes"
  | arity node expected found => s!"{node} expects {expected} input(s), got {found}"
  | invalidPlan fault => "invalid plan: " ++ fault.message

def code : PlanningError → String
  | missingColumn .. => "MissingColumn"
  | unknownColumn .. => "UnknownColumn"
  | incompatibleSignature .. => "IncompatibleSignature"
  | invalidCostPolicy _ => "InvalidCostPolicy"
  | rewriteLimitExceeded _ => "RewriteLimitExceeded"
  | arity .. => "Arity"
  | invalidPlan _ => "InvalidPlan"

/-- The text with the code in front. -/
def coded (e : PlanningError) : String := "[" ++ e.code ++ "] " ++ e.message

end PlanningError

/-! ## Binding -/

inductive BindingError where
  /-- There is no slot of this number. -/
  | unknownLiteral (slot : Nat)
  /-- The slot is a parameter without a value. -/
  | unboundParameter (slot : Nat)
  /-- No values have been collected for the sub-query. -/
  | missingSubquery (group : GroupId)
  /-- There is no tuple, or it lacks the column. -/
  | missingColumn (column : String)
  | typeMismatch (slot : Nat) (expected : ColumnType) (found : String)
deriving DecidableEq

namespace BindingError

def message : BindingError → String
  | unknownLiteral slot => s!"literal binding {slot} is not registered in the binding context"
  | unboundParameter slot => s!"parameter {slot} has not been bound"
  | missingSubquery group => s!"sub-query of group {group} has not been bound"
  | missingColumn column => s!"column '{column}' is not available for binding"
  | typeMismatch slot expected found =>
    s!"binding {slot} expects {expected.display}, got {found}"

def code : BindingError → String
  | unknownLiteral _ => "UnknownLiteral"
  | unboundParameter _ => "UnboundParameter"
  | missingSubquery _ => "MissingSubquery"
  | missingColumn _ => "MissingColumn"
  | typeMismatch .. => "TypeMismatch"

end BindingError

/-! ## Execution -/

/-- What a table, an index or an operator that lacks what it needs refuses. -/
inductive StorageError where
  | unknownColumn (table column : String)
  | nullRefused (column : String)
  | typeRefused (column : Column) (found : String)
  | invalidPartition (partition partitions : Nat)
  | valueCount (table : String) (values columns : Nat)
  | unknownRow (row : RowId) (table : String)
  | unsupportedPredicate (index predicate : String)
  | noInput (operator : String)
  | notAggregate
  /-- The storage itself reports a failure. -/
  | unavailable (reason : String)
deriving DecidableEq

def StorageError.message : StorageError → String
  | unknownColumn table column => s!"entity {table} has no column {column}"
  | nullRefused column => s!"column {column} is not nullable"
  | typeRefused column found =>
    s!"column {column.name} of type {column.type.display} cannot store {found}"
  | invalidPartition partition partitions => s!"invalid partition {partition} of {partitions}"
  | valueCount table values columns =>
    s!"insert into {table} supplies {values} values for {columns} columns"
  | unknownRow row table => s!"row {row} not found in {table}"
  | unsupportedPredicate index predicate => s!"index {index} cannot process {predicate}"
  | noInput operator => s!"{operator} has no input"
  | notAggregate => "select is not an aggregate"
  | unavailable reason => reason

/-- Why a function gives no value. -/
inductive FunctionFault where
  | argumentCount (expected found : Nat)
  | widthMismatch (left right : Nat)
  | refused (reason : String)
deriving DecidableEq

def FunctionFault.message : FunctionFault → String
  | argumentCount expected found => s!"expected {expected} arguments, got {found}"
  | widthMismatch left right => s!"vector widths differ ({left} vs {right})"
  | refused reason => reason

inductive ExecutionError where
  | storage (cause : StorageError)
  | function (name : String) (fault : FunctionFault)
  | binding (cause : BindingError)
  | cancelled
  /-- A spill file could not be written or read. -/
  | spill
  | typeMismatch (context expected found : String)
  /-- The worker of a group ended without a result. -/
  | workerLost (group : GroupId)
deriving DecidableEq

namespace ExecutionError

def message : ExecutionError → String
  | storage cause => "storage error: " ++ cause.message
  | function name fault => s!"function '{name}' failed: " ++ fault.message
  | binding cause => cause.message
  | cancelled => "query cancelled"
  | spill => "I/O error"
  | typeMismatch context expected found =>
    s!"type mismatch in {context}: expected {expected}, got {found}"
  | workerLost group => s!"worker for group {group} terminated abnormally"

def code : ExecutionError → String
  | storage _ => "Storage"
  | function .. => "Function"
  | binding cause => cause.code
  | cancelled => "Cancelled"
  | spill => "Io"
  | typeMismatch .. => "TypeMismatch"
  | workerLost _ => "WorkerLost"

end ExecutionError

/-- Any error of planning or running a query. -/
inductive QueryError where
  | planning (cause : PlanningError)
  | binding (cause : BindingError)
  | execution (cause : ExecutionError)
deriving DecidableEq

namespace QueryError

def message : QueryError → String
  | planning cause => cause.message
  | binding cause => cause.message
  | execution cause => cause.message

def code : QueryError → String
  | planning cause => cause.code
  | binding cause => cause.code
  | execution cause => cause.code

/-- The code with the stage that failed. -/
def qualifiedCode : QueryError → String
  | planning cause => "Planning." ++ cause.code
  | binding cause => "Binding." ++ cause.code
  | execution cause => "Execution." ++ cause.code

end QueryError

/-! ## Crashes -/

/-- A result or an error, unless the computation crashes. -/
abbrev Fallible (ε : Type) := ExceptT ε (Except Crash)

/-- How a running operator can fail. -/
inductive Failure where
  | error (cause : ExecutionError)
  | crashed (cause : Crash)
deriving DecidableEq

/-- The result of a step that may crash, as the result of an operator. -/
def Crash.lifted {α : Type} (r : Except Crash α) : Except Failure α := r.mapError .crashed

end QueryEngine
