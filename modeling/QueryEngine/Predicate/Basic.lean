import QueryEngine.Binding
import QueryEngine.Predicate.Like

/-!
# Predicates

A predicate is a tree of conjunctions and disjunctions over comparisons of bindings. A comparison
with null does not hold.
-/

set_option autoImplicit false

namespace QueryEngine

/-- The relations between two values. -/
inductive Relation where
  | equal
  | notEqual
  | greater
  | greaterEqual
  | less
  | lessEqual
deriving DecidableEq

namespace Relation

def symbol : Relation → String
  | equal => "="
  | notEqual => "!="
  | greater => ">"
  | greaterEqual => ">="
  | less => "<"
  | lessEqual => "<="

def all : List Relation := [equal, notEqual, greater, greaterEqual, less, lessEqual]

/-- Whether two values with this comparison stand in the relation. -/
def holds : Relation → Option Ordering → Bool
  | equal, some .eq => true
  | notEqual, some .lt => true
  | notEqual, some .gt => true
  | greater, some .gt => true
  | greaterEqual, some .gt => true
  | greaterEqual, some .eq => true
  | less, some .lt => true
  | lessEqual, some .lt => true
  | lessEqual, some .eq => true
  | _, _ => false

end Relation

inductive Comparison where
  | relation (r : Relation) (left right : Binding)
  | between (value lower upper : Binding)
  /-- The value is among the values of the list; a sub-query stands for all its results. -/
  | oneOf (value : Binding) (list : List Binding)
  | isNull (value : Binding)
  | like (value pattern : Binding)

namespace Comparison

def name : Comparison → String
  | relation r _ _ => r.symbol
  | between .. => "BETWEEN"
  | oneOf .. => "IN"
  | isNull _ => "IS NULL"
  | like .. => "LIKE"

/-- The bindings, the tested one first. -/
def bindings : Comparison → List Binding
  | relation _ left right => [left, right]
  | between value lower upper => [value, lower, upper]
  | oneOf value list => value :: list
  | isNull value => [value]
  | like value pattern => [value, pattern]

/-- The comparison with this name and these bindings. Only `IN` takes any number of them; the
others leave out what they have no place for. -/
def ofBindings? (name : String) (bindings : List Binding) : Option Comparison :=
  match name, bindings with
  | "BETWEEN", value :: lower :: upper :: _ => some (between value lower upper)
  | "IN", value :: list => some (oneOf value list)
  | "IS NULL", value :: _ => some (isNull value)
  | "LIKE", value :: pattern :: _ => some (like value pattern)
  | _, left :: right :: _ =>
    (Relation.all.find? (·.symbol == name)).map fun r => relation r left right
  | _, _ => none

theorem ofBindings?_bindings (c : Comparison) : ofBindings? c.name c.bindings = some c := by
  cases c with
  | relation r _ _ => cases r <;> rfl
  | _ => rfl

/-- The column that is tested, if it is a plain column. -/
def column? (c : Comparison) : Option Column :=
  match c.bindings with
  | .column column :: _ => some column
  | _ => none

/-- The columns that a comparison reads, in order. -/
def columns (c : Comparison) : List Column := c.bindings.flatMap Binding.columns

/-- The costs of the functions that are applied directly. -/
def functionCosts (c : Comparison) : List Cost :=
  c.bindings.filterMap fun b =>
    match b with
    | .call f _ => some f.cost
    | _ => none

/-- The cost of one evaluation. -/
def cost (c : Comparison) : Cost :=
  let base := match c with
    | like .. => Cost.memoryAccess * (.ofNat 4 : Binary32) + Cost.flop * (.ofNat 4 : Binary32)
    | _ => Cost.memoryAccess * (.ofNat c.bindings.length : Binary32) + Cost.flop
  base + Cost.sum c.functionCosts

def display : Comparison → String
  | between value lower upper => s!"{value.display} BETWEEN {lower.display} AND {upper.display}"
  | oneOf value list =>
    value.display ++ " IN (" ++ ", ".intercalate (list.map Binding.display) ++ ")"
  | isNull value => value.display ++ " IS NULL"
  | like value pattern => s!"{value.display} LIKE {pattern.display}"
  | relation r left right => s!"{left.display} {r.symbol} {right.display}"

/-- Whether some binding of a list has a value that equals `v`; the first such one ends the
search. -/
def isAmong (b : Bindings) (t : Tuple) (v : Value) : List Binding → Except Failure Bool
  | [] => .ok false
  | candidate :: rest =>
    match b.resolveAll (some t) candidate with
    | .error e => .error e
    | .ok values =>
      if values.any fun c => v.compare? c == some .eq then .ok true else isAmong b t v rest

/-- Whether the comparison holds for a tuple. -/
def holds (c : Comparison) (b : Bindings) (t : Tuple) : Except Failure Bool :=
  match c with
  | relation r left right => do
    let x ← b.resolve (some t) left
    let y ← b.resolve (some t) right
    return r.holds (x.compare? y)
  | between value lower upper => do
    let v ← b.resolve (some t) value
    let low ← b.resolve (some t) lower
    if Relation.greaterEqual.holds (v.compare? low) then
      let high ← b.resolve (some t) upper
      return Relation.lessEqual.holds (v.compare? high)
    else return false
  | oneOf value list => do
    let v ← b.resolve (some t) value
    isAmong b t v list
  | isNull value => do
    let v ← b.resolve (some t) value
    return v.isNull
  | like value pattern => do
    let v ← b.resolve (some t) value
    let p ← b.resolve (some t) pattern
    match v, p with
    | .text v, .text p => Crash.lifted (Like.isMatch (utf8Bytes v) (utf8Bytes p))
    | _, _ => return false

def digestBytes (c : Comparison) : List UInt8 :=
  utf8Bytes c.name ++ littleEndian 8 c.bindings.length ++ c.bindings.flatMap Binding.digestBytes

end Comparison

inductive Predicate where
  | literal (value : Bool)
  | atom (comparison : Comparison) (negated : Bool)
  | both (left right : Predicate)
  | either (left right : Predicate)

namespace Predicate

/-- The comparisons with their negations, from left to right. -/
def atoms : Predicate → List (Comparison × Bool)
  | literal _ => []
  | atom c negated => [(c, negated)]
  | both l r => l.atoms ++ r.atoms
  | either l r => l.atoms ++ r.atoms

/-- The columns that a predicate reads, in ascending order. -/
def columns (p : Predicate) : List Column :=
  Column.sortedSet (p.atoms.flatMap fun atom => atom.1.columns)

/-- The cost of one evaluation. -/
def cost : Predicate → Cost
  | literal _ => .zero
  | atom c _ => c.cost
  | both l r => l.cost + r.cost
  | either l r => l.cost + r.cost

/-- The bindings of all comparisons, from left to right. -/
def bindings (p : Predicate) : List Binding := p.atoms.flatMap fun atom => atom.1.bindings

/-- The sub-queries that are read directly. -/
def subqueries (p : Predicate) : List Binding := p.bindings.filter Binding.isSubquery

/-- Whether the predicate holds for a tuple; the right side is evaluated only if it matters. -/
def holds (b : Bindings) (t : Tuple) : Predicate → Except Failure Bool
  | literal value => .ok value
  | atom c negated => (c.holds b t).map (· != negated)
  | both l r =>
    match holds b t l with
    | .ok true => holds b t r
    | other => other
  | either l r =>
    match holds b t l with
    | .ok false => holds b t r
    | other => other

def display : Predicate → String
  | literal value => if value then "true" else "false"
  | atom c negated => if negated then "NOT (" ++ c.display ++ ")" else c.display
  | both l r => s!"({l.display}) AND ({r.display})"
  | either l r => s!"({l.display}) OR ({r.display})"

def digestBytes : Predicate → List UInt8
  | literal value => [0, value.toUInt8]
  | atom c negated => 1 :: negated.toUInt8 :: c.digestBytes
  | both l r => 2 :: l.digestBytes ++ r.digestBytes
  | either l r => 3 :: l.digestBytes ++ r.digestBytes

end Predicate

end QueryEngine
