import QueryEngine.Function.Basic

/-!
# Vector distances

A distance sums up the components of two vectors in up to three accumulators and finishes with a
closing step. The narrow kernel takes the components one by one. The wide kernel cuts both vectors
into chunks of eight, gives each of eight lanes one pair of components of every chunk, adds the
lanes up and then takes the components that are left.

The accumulators need only ring operations and an absolute value, so they are stated for any
`Scalar`.
-/

set_option autoImplicit false

namespace QueryEngine

/-- What the accumulators of a distance need of a number type. -/
class Scalar (α : Type) extends Add α, Sub α, Mul α where
  zero : α
  abs : α → α

/-- What the closing step needs besides. -/
class RootScalar (α : Type) extends Scalar α, Div α where
  one : α
  sqrt : α → α
  isZero : α → Bool

instance {f : BinaryFormat} [FloatingUnit f] : RootScalar (Binary f) where
  zero := .zero
  abs := Binary.abs
  one := .ofNat 1
  sqrt := Binary.sqrt
  isZero := Binary.isZero

inductive DistanceKind where
  | manhattan
  | euclidean
  | squaredEuclidean
  | cosine
  | innerProduct
deriving DecidableEq

namespace DistanceKind

def all : List DistanceKind := [manhattan, euclidean, squaredEuclidean, cosine, innerProduct]

def name : DistanceKind → String
  | manhattan => "manhattan"
  | euclidean => "euclidean"
  | squaredEuclidean => "squaredeuclidean"
  | cosine => "cosine"
  | innerProduct => "innerproduct"

/-- Floating-point operations per component. -/
def operations : DistanceKind → Nat
  | manhattan => 2
  | euclidean => 3
  | squaredEuclidean => 3
  | cosine => 6
  | innerProduct => 2

end DistanceKind

/-- Cuts a list into whole chunks of eight; the second part holds the entries left. -/
def chunksOfEight {α : Type} : List α → List (List α) × List α
  | a :: b :: c :: d :: e :: f :: g :: h :: rest =>
    let cut := chunksOfEight rest
    ([a, b, c, d, e, f, g, h] :: cut.1, cut.2)
  | rest => ([], rest)

/-- Three running sums. -/
structure Accumulators (α : Type) where
  first : α
  second : α
  third : α
deriving DecidableEq

namespace Accumulators

variable {α : Type} [Scalar α]

def zero : Accumulators α := ⟨Scalar.zero, Scalar.zero, Scalar.zero⟩

def add (a b : Accumulators α) : Accumulators α :=
  ⟨a.first + b.first, a.second + b.second, a.third + b.third⟩

/-- Takes in one pair of components. -/
def step (kind : DistanceKind) (a : Accumulators α) (pair : α × α) : Accumulators α :=
  let x := pair.1
  let y := pair.2
  match kind with
  | .manhattan => { a with first := a.first + Scalar.abs (x - y) }
  | .euclidean | .squaredEuclidean => { a with first := a.first + (x - y) * (x - y) }
  | .innerProduct => { a with first := a.first + x * y }
  | .cosine => ⟨a.first + x * y, a.second + x * x, a.third + y * y⟩

/-- Takes in components one by one. -/
def narrow (kind : DistanceKind) (xs ys : List α) : Accumulators α :=
  (xs.zip ys).foldl (step kind) zero

/-- Takes in a chunk of each vector, a pair of components for every lane. -/
def stepLanes (kind : DistanceKind) (lanes : List (Accumulators α)) (chunks : List α × List α) :
    List (Accumulators α) :=
  List.zipWith (step kind) lanes (chunks.1.zip chunks.2)

/-- Takes in components by eight lanes. -/
def wide (kind : DistanceKind) (xs ys : List α) : Accumulators α :=
  let cutX := chunksOfEight xs
  let cutY := chunksOfEight ys
  let lanes := (cutX.1.zip cutY.1).foldl (stepLanes kind) (List.replicate 8 zero)
  (cutX.2.zip cutY.2).foldl (step kind) (lanes.foldl add zero)

end Accumulators

namespace DistanceKind

/-- The distance that the sums stand for. -/
def finish {α : Type} [RootScalar α] (kind : DistanceKind) (a : Accumulators α) : α :=
  match kind with
  | manhattan | squaredEuclidean => a.first
  | euclidean => RootScalar.sqrt a.first
  | innerProduct => RootScalar.one - a.first
  | cosine =>
    let norms := RootScalar.sqrt a.second * RootScalar.sqrt a.third
    if RootScalar.isZero norms then RootScalar.one else RootScalar.one - a.first / norms

/-- The distance of two vectors, by the narrow or the wide kernel. -/
def distance {α : Type} [RootScalar α] (kind : DistanceKind) (wide : Bool) (xs ys : List α) : α :=
  kind.finish (if wide then Accumulators.wide kind xs ys else Accumulators.narrow kind xs ys)

/-- The distance of two vectors of the same width. -/
def checked {α : Type} [RootScalar α] (kind : DistanceKind) (wide : Bool) (xs ys : List α) :
    Except Failure α :=
  if xs.length = ys.length then .ok (kind.distance wide xs ys)
  else .error (.error (.function kind.name (.widthMismatch xs.length ys.length)))

/-- Refuses a value that is no vector of the expected kind. -/
def refuse (returns : ColumnType) (found : Value) : Except Failure Value :=
  let expected := match returns with
    | .double => "double_vector"
    | _ => "float_vector"
  .error (.error (.typeMismatch "vector distance" expected found.kindName))

/-- Applies a distance; null gives null. -/
def invoke (kind : DistanceKind) (returns : ColumnType) (wide : Bool) :
    List Value → Except Failure Value
  | [left, right] =>
    match left, right with
    | .null, _ => .ok .null
    | _, .null => .ok .null
    | .floatVector xs, .floatVector ys => (kind.checked wide xs ys).map .float
    | .doubleVector xs, .doubleVector ys => (kind.checked wide xs ys).map .double
    | .floatVector _, other => refuse returns other
    | .doubleVector _, other => refuse returns other
    | other, _ => refuse returns other
  | arguments => .error (.error (.function kind.name (.argumentCount 2 arguments.length)))

/-- The number of lanes of the wide kernel. -/
def laneCount : Binary32 := .ofNat 8

/-- The cost of one distance of vectors of the given width. -/
def cost (kind : DistanceKind) (wide : Bool) (dims : Nat) : Cost :=
  let operations := .ofNat kind.operations * .ofNat dims
  let accesses := .ofNat 2 * .ofNat dims
  if wide then Cost.flop * (operations / laneCount) + Cost.memoryAccess * (accesses / laneCount)
  else Cost.flop * operations + Cost.memoryAccess * accesses

def kernel (kind : DistanceKind) (returns : ColumnType) (dims : Nat) (wide : Bool) : Kernel :=
  ⟨kind.cost wide dims, kind.invoke returns wide⟩

/-- A distance of two vectors of the given type and width. -/
def function (kind : DistanceKind) (type returns : ColumnType) : Function :=
  let dims := type.logicalSize
  ⟨⟨kind.name, [type, type], returns⟩, kind.kernel returns dims false, false,
    some (kind.kernel returns dims true)⟩

/-- A distance takes two vectors of one type and width. -/
def factory (kind : DistanceKind) : FunctionFactory
  | [.floatVector a, .floatVector b] =>
    if a = b then some (kind.function (.floatVector a) .float) else none
  | [.doubleVector a, .doubleVector b] =>
    if a = b then some (kind.function (.doubleVector a) .double) else none
  | _ => none

end DistanceKind

namespace FunctionRegistry

/-- The vector distances. -/
def builtins : FunctionRegistry :=
  DistanceKind.all.foldl (fun r kind => r.register kind.name kind.factory) empty

end FunctionRegistry

end QueryEngine
