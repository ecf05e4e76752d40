import QueryEngine.Hash.XXH64
import QueryEngine.Plan.Operator

/-!
# Physical plans

What a tree of physical operators produces, needs and promises: its columns, whether it is valid,
which late-bound values it reads, and the traits of its output.
-/

set_option autoImplicit false

namespace QueryEngine

namespace Operator

/-! ## Columns -/

/-- The columns of `wanted` that are not among `present`. -/
def missing (wanted present : List Column) : List Column := wanted.filter fun c => c ∉ present

/-- The columns produced, given those of the first input. -/
def columns (op : Operator) (input : List Column) : List Column :=
  match op with
  | scan _ cs _ _ => cs
  | sample _ cs _ _ => cs
  | rowCount _ out => [out]
  | indexScan x _ _ => [x.column]
  | function _ _ out => input ++ [out]
  | fetch _ cs => input ++ missing cs input
  | projection p => p.columns
  | insert .. => []
  | update .. => []
  | delete _ => []
  | _ => input

/-- The columns that are read from the first input. -/
def requires : Operator → List Column
  | filter p => p.columns
  | subselect p => p.columns
  | function _ arguments _ => arguments.flatMap Binding.columns
  | projection p => p.requires
  | sort order => order.map (·.1)
  | externalSort order _ => order.map (·.1)
  | limitingSort order _ => order.map (·.1)
  | mergeLimitingSort order _ => order.map (·.1)
  | update _ values => values.flatMap fun v => v.2.columns
  | _ => []

/-! ## Validity -/

/-- Whether a table has all these columns. -/
def checkColumns (t : TableHandle) (cs : List Column) : Except PlanningError Unit :=
  match (missing cs t.columns).head? with
  | some c => .error (.unknownColumn c.name ("entity " ++ t.name))
  | none => .ok ()

/-- Whether all inputs produce the same columns. -/
def checkAgreement (op : Operator) (inputs : List (List Column)) : Except PlanningError Unit :=
  if inputs.all (· = inputs.headD []) then .ok ()
  else .error (.invalidPlan (.differentColumns op.name))

/-- Whether what an operator is given fits its table, its function or its inputs. -/
def checkDetails (op : Operator) (inputs : List (List Column)) : Except PlanningError Unit :=
  match op with
  | scan t cs _ _ => checkColumns t cs
  | sample t cs _ _ => checkColumns t cs
  | fetch t cs => checkColumns t cs
  | insert t values => checkColumns t (values.map (·.1))
  | update t values => checkColumns t (values.map (·.1))
  | function f arguments _ =>
    if f.signature.arguments.length = arguments.length then .ok ()
    else .error (.incompatibleSignature f.signature.name (arguments.map Binding.display))
  | merge => op.checkAgreement inputs
  | mergeLimitingSort .. => op.checkAgreement inputs
  | union _ => op.checkAgreement inputs
  | intersect => op.checkAgreement inputs
  | _ => .ok ()

/-- Whether the first input, if any, produces the columns that are read from it. -/
def checkRequired (op : Operator) (inputs : List (List Column)) : Except PlanningError Unit :=
  match inputs.head?.bind fun input => (missing op.requires input).head? with
  | some c => .error (.missingColumn op.name c.name)
  | none => .ok ()

/-- Whether an operator can be applied to inputs with the given columns. -/
def check (op : Operator) (inputs : List (List Column)) : Except PlanningError Unit := do
  if op.arity.admits inputs.length then
    op.checkRequired inputs
    op.checkDetails inputs
  else .error (.arity op.name op.arity.expected inputs.length)

/-! ## Late-bound values -/

/-- The bindings that are resolved while the operator runs. -/
def bindings : Operator → List Binding
  | indexScan _ _ p => p.bindings
  | filter p => p.bindings
  | subselect p => p.bindings
  | function _ arguments _ => arguments
  | insert _ values => values.map (·.2)
  | update _ values => values.map (·.2)
  | _ => []

/-! ## Traits -/

/-- The traits of an output that must not be split. -/
def blocked : TraitSet := TraitSet.empty.insert .notPartitionable

/-- The traits of the output, given those of the first input's output. -/
def traits (op : Operator) (input : TraitSet) : TraitSet :=
  match op with
  | scan _ _ _ n => if 1 < n then blocked else .empty
  | sample .. => .empty
  | filter _ => input
  | subselect _ => input.insert .notPartitionable
  | function .. => input
  | fetch .. => input
  | projection p => if p.isAggregate then blocked.insert .materialized else input
  | sort order | externalSort order _ =>
    (((input.erase .limit).insert (.order order)).insert .materialized).insert .notPartitionable
  | limitingSort order bounds =>
    (((TraitSet.empty.insert (.order order)).insert (.limit bounds)).insert .materialized).insert
      .notPartitionable
  | mergeLimitingSort order bounds => (blocked.insert (.order order)).insert (.limit bounds)
  | limit bounds => (input.insert (.limit bounds)).insert .notPartitionable
  | _ => blocked

end Operator

/-- The first error of a list of checks. -/
def firstError {ε : Type} : List (Except ε Unit) → Except ε Unit
  | [] => .ok ()
  | .ok () :: rest => firstError rest
  | .error e :: _ => .error e

namespace PhysicalPlan

variable (t : PhysicalPlan)

def name : String := t.op.name

def columns : List Column :=
  t.fold fun _ op _ below => op.columns (below.headD [])

/-- A node is checked before its inputs. -/
def validate : Except PlanningError Unit :=
  t.fold fun _ op inputs below => do
    op.check (inputs.map columns)
    firstError below

/-- Whether every late-bound value has been given, from the root on. -/
def bind (b : Bindings) : Except BindingError Unit :=
  t.fold fun _ op _ below => do
    b.checkAll op.bindings
    firstError below

def traits : TraitSet :=
  t.fold fun _ op _ below => op.traits (below.headD .empty)

/-- The estimated size of an output tuple in bytes, at least one. -/
def tupleSize : Nat := max (Column.rowWidth t.columns) 1

/-- The bytes that stand for a tree in digests. Groups do not count. -/
def digestBytes : List UInt8 :=
  t.fold fun _ op _ below => op.digestBytes ++ littleEndian 8 below.length ++ below.flatten

def digest : UInt64 := XXH64.hash t.digestBytes

/-- The number of nodes with an operator of this name. -/
def count (name : String) : Nat := (t.subtrees.filter fun u => u.op.name = name).length

end PhysicalPlan

end QueryEngine
