import QueryEngine.Cost.Basic
import QueryEngine.Error

/-!
# Functions

A function is resolved by name and argument types. It has one kernel that computes it and may have
a second, vectorised one with the same signature.
-/

set_option autoImplicit false

namespace QueryEngine

/-- The name, argument types and result type of a function. -/
structure Signature where
  name : String
  arguments : List ColumnType
  returns : ColumnType
deriving DecidableEq

def Signature.display (s : Signature) : String :=
  s.name ++ "(" ++ ", ".intercalate (s.arguments.map ColumnType.display) ++ ") -> " ++
    s.returns.display

/-- A way to compute a function, with the cost of one invocation. -/
structure Kernel where
  cost : Cost
  invoke : List Value → Except Failure Value

structure Function where
  signature : Signature
  kernel : Kernel
  isVectorised : Bool
  /-- The kernel of the vectorised variant. -/
  wideKernel : Option Kernel

namespace Function

/-- A function without a vectorised variant. -/
def ofKernel (signature : Signature) (kernel : Kernel) : Function := ⟨signature, kernel, false, none⟩

/-- The vectorised variant, if there is one; the variant itself has none. -/
def vectorised? (f : Function) : Option Function :=
  f.wideKernel.map fun kernel => ⟨f.signature, kernel, true, none⟩

def cost (f : Function) : Cost := f.kernel.cost

def invoke (f : Function) (arguments : List Value) : Except Failure Value :=
  f.kernel.invoke arguments

end Function

/-- Resolves argument types to a function, or refuses them. -/
abbrev FunctionFactory := List ColumnType → Option Function

/-- The known functions in the order of their registration, under names in lower case. -/
structure FunctionRegistry where
  factories : List (String × FunctionFactory)

namespace FunctionRegistry

def empty : FunctionRegistry := ⟨[]⟩

def lowerCase (name : String) : String := String.ofList (name.toList.map Char.toLower)

def register (r : FunctionRegistry) (name : String) (factory : FunctionFactory) :
    FunctionRegistry :=
  ⟨r.factories ++ [(lowerCase name, factory)]⟩

/-- The first function of this name, in any case, that takes arguments of these types. -/
def resolve (r : FunctionRegistry) (name : String) (arguments : List ColumnType) :
    Except PlanningError Function :=
  match r.factories.findSome? fun entry =>
      if entry.1 = lowerCase name then entry.2 arguments else none with
  | some f => .ok f
  | none => .error (.incompatibleSignature name (arguments.map ColumnType.display))

end FunctionRegistry

end QueryEngine
