import QueryEngine.Function.Basic
import QueryEngine.Hash.Bytes

/-!
# Late-bound values

A plan holds bindings in place of values. Literals and parameters live in numbered slots of a
`Bindings` store, the results of sub-queries under the number of their group. A binding is resolved
against the store and, for columns, the tuple at hand.
-/

set_option autoImplicit false

namespace QueryEngine

inductive Binding where
  /-- The value in a slot, with the declared type of the slot. -/
  | literal (slot : Nat) (type : Option ColumnType)
  | column (column : Column)
  | call (function : Function) (arguments : List Binding)
  /-- The values that a sub-query has for one of its columns. -/
  | subquery (group : GroupId) (column : Column)

namespace Binding

mutual

/-- The columns that a binding reads from the tuple, in order. -/
def columns : Binding → List Column
  | literal .. => []
  | column c => [c]
  | call _ arguments => columnsOfAll arguments
  | subquery .. => []

def columnsOfAll : List Binding → List Column
  | [] => []
  | b :: rest => b.columns ++ columnsOfAll rest

end

/-- The type of the value, where it is known. -/
def type? : Binding → Option ColumnType
  | literal _ type => type
  | column c => some c.type
  | call f _ => some f.signature.returns
  | subquery _ c => some c.type

mutual

/-- Whether the value does not depend on the tuple. -/
def isStatic : Binding → Bool
  | literal .. => true
  | column _ => false
  | call _ arguments => areStatic arguments
  | subquery .. => true

def areStatic : List Binding → Bool
  | [] => true
  | b :: rest => b.isStatic && areStatic rest

end

mutual

def display : Binding → String
  | literal slot _ => s!":{slot}"
  | column c => c.name
  | call f arguments => f.signature.name ++ "(" ++ ", ".intercalate (displayAll arguments) ++ ")"
  | subquery group c => s!"subquery#{group}.{c.name}"

def displayAll : List Binding → List String
  | [] => []
  | b :: rest => b.display :: displayAll rest

end

mutual

/-- The bytes that stand for a binding in digests; a slot is told by its number, not its value. -/
def digestBytes : Binding → List UInt8
  | literal slot _ => 0 :: littleEndian 8 slot
  | column c => 1 :: utf8Bytes c.name
  | call f arguments =>
    2 :: utf8Bytes f.signature.display ++ f.isVectorised.toUInt8 :: digestBytesOfAll arguments
  | subquery group c => 3 :: bytes32 group ++ utf8Bytes c.name

def digestBytesOfAll : List Binding → List UInt8
  | [] => []
  | b :: rest => b.digestBytes ++ digestBytesOfAll rest

end

def isSubquery : Binding → Bool
  | subquery .. => true
  | _ => false

end Binding

/-- The values behind bindings; a slot without a value is a parameter. -/
structure Bindings where
  slots : List (Option Value)
  subqueries : List (GroupId × List Value)
deriving DecidableEq

namespace Bindings

def empty : Bindings := ⟨[], []⟩

/-- Puts a value into a new slot. -/
def bind (b : Bindings) (v : Value) : Bindings × Binding :=
  ({ b with slots := b.slots ++ [some v] }, .literal b.slots.length v.type?)

/-- Opens a new slot without a value. -/
def bindParameter (b : Bindings) (type : Option ColumnType) : Bindings × Binding :=
  ({ b with slots := b.slots ++ [none] }, .literal b.slots.length type)

/-- The value of a slot. -/
def literal (b : Bindings) (slot : Nat) : Except BindingError Value :=
  match b.slots[slot]? with
  | some (some v) => .ok v
  | some none => .error (.unboundParameter slot)
  | none => .error (.unknownLiteral slot)

/-- Replaces the value of a literal; the declared type has to accept it. -/
def update (b : Bindings) (binding : Binding) (v : Value) : Except BindingError Bindings :=
  match binding with
  | .literal slot type =>
    match type.filter fun t => !t.accepts v with
    | some t => .error (.typeMismatch slot t v.kindName)
    | none =>
      if slot < b.slots.length then .ok { b with slots := b.slots.set slot (some v) }
      else .error (.unknownLiteral slot)
  | other => .error (.missingColumn other.display)

/-! ## Sub-queries -/

/-- The values of a sub-query, if it has been opened. -/
def subquery? (b : Bindings) (group : GroupId) : Option (List Value) := b.subqueries.lookup group

def subquery (b : Bindings) (group : GroupId) : Except BindingError (List Value) :=
  match b.subquery? group with
  | some values => .ok values
  | none => .error (.missingSubquery group)

def clearSubquery (b : Bindings) (group : GroupId) : Bindings :=
  { b with subqueries := b.subqueries.filter (·.1 != group) }

def setSubquery (b : Bindings) (group : GroupId) (values : List Value) : Bindings :=
  { b with subqueries := (group, values) :: (b.clearSubquery group).subqueries }

/-- Marks a sub-query as bound, without values so far. -/
def openSubquery (b : Bindings) (group : GroupId) : Bindings := b.setSubquery group []

/-- Adds a value to a sub-query's results. -/
def append (b : Bindings) (group : GroupId) (v : Value) : Bindings :=
  b.setSubquery group ((b.subquery? group).getD [] ++ [v])

/-- Forgets the results of all sub-queries. -/
def clear (b : Bindings) : Bindings := { b with subqueries := [] }

/-! ## Resolution -/

mutual

/-- Whether every slot that a binding reads has a value. -/
def check (b : Bindings) : Binding → Except BindingError Unit
  | .literal slot _ => (b.literal slot).map fun _ => ()
  | .column _ => .ok ()
  | .call _ arguments => checkAll b arguments
  | .subquery .. => .ok ()

def checkAll (b : Bindings) : List Binding → Except BindingError Unit
  | [] => .ok ()
  | a :: rest =>
    match check b a with
    | .error e => .error e
    | .ok () => checkAll b rest

end

/-- The result of a look-up, as the result of an operator. -/
def lifted {α : Type} (r : Except BindingError α) : Except Failure α :=
  r.mapError fun e => .error (.binding e)

/-- The value of a column of the tuple at hand. -/
def columnValue (tuple : Option Tuple) (c : Column) : Except Failure Value := do
  let found ← Crash.lifted (tuple.mapM fun t => t.get? c)
  match found.join with
  | some v => .ok v
  | none => lifted (.error (.missingColumn c.name))

mutual

/-- The value of a binding. A sub-query gives its first value, or null if it has none. -/
def resolve (b : Bindings) (tuple : Option Tuple) : Binding → Except Failure Value
  | .literal slot _ => lifted (b.literal slot)
  | .column c => columnValue tuple c
  | .call f arguments =>
    match resolveEach b tuple arguments with
    | .error e => .error e
    | .ok values => f.invoke values
  | .subquery group _ => (lifted (b.subquery group)).map fun values => values.headD .null

/-- The values of arguments, from left to right. -/
def resolveEach (b : Bindings) (tuple : Option Tuple) : List Binding → Except Failure (List Value)
  | [] => .ok []
  | a :: rest =>
    match resolve b tuple a with
    | .error e => .error e
    | .ok v => (resolveEach b tuple rest).map (v :: ·)

end

/-- All values of a binding: the whole results of a sub-query, one value of anything else. -/
def resolveAll (b : Bindings) (tuple : Option Tuple) : Binding → Except Failure (List Value)
  | .subquery group _ => lifted (b.subquery group)
  | other => (b.resolve tuple other).map fun v => [v]

end Bindings

end QueryEngine
