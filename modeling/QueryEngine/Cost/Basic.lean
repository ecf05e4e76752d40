import QueryEngine.Binary.Arithmetic

/-!
# Costs

A cost has four components in single precision. Costs are added up over the operators of a plan
and only weighed against each other by a policy.
-/

set_option autoImplicit false

namespace QueryEngine

structure Cost where
  /-- Storage access. -/
  io : Binary32
  /-- Computation. -/
  cpu : Binary32
  /-- Memory held while an operator runs. -/
  memory : Binary32
  /-- Loss of accuracy. -/
  accuracy : Binary32
deriving DecidableEq

namespace Cost

/-- Applies an operation component by component. -/
def zipWith (op : Binary32 → Binary32 → Binary32) (a b : Cost) : Cost :=
  ⟨op a.io b.io, op a.cpu b.cpu, op a.memory b.memory, op a.accuracy b.accuracy⟩

def map (op : Binary32 → Binary32) (a : Cost) : Cost :=
  ⟨op a.io, op a.cpu, op a.memory, op a.accuracy⟩

def zero : Cost := ⟨.zero, .zero, .zero, .zero⟩

/-- A difference that is not above zero counts as zero. -/
def floored (x : Binary32) : Binary32 := if Binary.zero.lt x then x else .zero

instance : Add Cost := ⟨zipWith (· + ·)⟩
instance : Sub Cost := ⟨zipWith fun x y => floored (x - y)⟩
instance : HMul Cost Binary32 Cost := ⟨fun a factor => a.map (· * factor)⟩

/-- The sum of a list, taken from the left. -/
def sum (costs : List Cost) : Cost := costs.foldl (· + ·) zero

/-- Reading one byte from storage. -/
def storageRead : Cost := { zero with io := .ofDecimal false 1 (-7) }

/-- Writing one byte to storage. -/
def storageWrite : Cost := { zero with io := .ofDecimal false 5 (-7) }

/-- Touching one value in memory. -/
def memoryAccess : Cost := { zero with cpu := .ofDecimal false 1 (-8) }

/-- One floating-point operation. -/
def flop : Cost := { zero with cpu := .ofDecimal false 1 (-9) }

/-- Holding one byte in memory. -/
def memoryByte : Cost := { zero with memory := .ofDecimal false 1 (-8) }

/-- Holding the given number of bytes in memory. -/
def memoryBytes (bytes : Binary64) : Cost := memoryByte * bytes.narrow

def components (a : Cost) : List Binary32 := [a.io, a.cpu, a.memory, a.accuracy]

/-- The cost with four components. -/
def ofComponents? : List Binary32 → Option Cost
  | [io, cpu, memory, accuracy] => some ⟨io, cpu, memory, accuracy⟩
  | _ => none

/-- Whether every component is a finite number that is not below zero. -/
def isValid (a : Cost) : Bool := a.components.all fun x => x.isFinite && Binary.zero.le x

end Cost

end QueryEngine
