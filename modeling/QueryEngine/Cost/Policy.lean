import QueryEngine.Cost.Basic
import QueryEngine.Error
import QueryEngine.Hash.Bytes

/-!
# Cost policies

A policy weighs the components of a cost and chooses how many workers a plan is split among.
-/

set_option autoImplicit false

namespace QueryEngine

structure CostPolicy where
  io : Binary32
  cpu : Binary32
  memory : Binary32
  accuracy : Binary32
  /-- The least speed-up that a further worker must bring. -/
  speedupPerWorker : Binary32
  /-- The share of parallelisable storage access that workers do not divide. -/
  sequentialIo : Binary32
deriving DecidableEq

namespace CostPolicy

def standard : CostPolicy :=
  { io := .ofDecimal false 3 (-1)
    cpu := .ofDecimal false 3 (-1)
    memory := .ofDecimal false 2 (-1)
    accuracy := .ofDecimal false 2 (-1)
    speedupPerWorker := .ofDecimal false 1 (-1)
    sequentialIo := .ofDecimal false 25 (-2) }

variable (p : CostPolicy)

/-- The factors with their names, weights first. -/
def factors : List (String × Binary32) :=
  [("wio", p.io), ("wcpu", p.cpu), ("wmemory", p.memory), ("waccuracy", p.accuracy),
    ("speedup_per_worker", p.speedupPerWorker), ("non_parallelisable_io", p.sequentialIo)]

/-- The policy with six factors, weights first. -/
def ofFactors? : List Binary32 → Option CostPolicy
  | [io, cpu, memory, accuracy, speedup, sequential] =>
    some ⟨io, cpu, memory, accuracy, speedup, sequential⟩
  | _ => none

def isUnit (x : Binary32) : Bool := Binary.zero.le x && x.le (.ofNat 1)

/-- The sum of the weights, in double precision. -/
def weightSum : Binary64 :=
  p.io.widen + p.cpu.widen + p.memory.widen + p.accuracy.widen

/-- How far the weights may be from summing to one. -/
def weightTolerance : Binary32 := .ofDecimal false 1 (-5)

/-- Every factor lies between zero and one, and the weights sum to one. -/
def validate : Except PolicyFault Unit :=
  match p.factors.find? fun factor => !isUnit factor.2 with
  | some (name, value) => .error (.outOfRange name value)
  | none =>
    if weightTolerance.widen.lt (p.weightSum - .ofNat 1).abs then .error (.weightSum p.weightSum)
    else .ok ()

/-- The weighted sum of a cost's components. -/
def score (c : Cost) : Binary32 :=
  p.io * c.io + p.cpu * c.cpu + p.memory * c.memory + p.accuracy * c.accuracy

/-- The share of a component in its maximum. -/
def share (x greatest : Binary32) : Binary32 :=
  if Binary.zero.lt greatest then x / greatest else .zero

/-- Scores alternatives after dividing each component by its maximum among them. -/
def scoreRelative (costs : List Cost) : List Binary32 :=
  let greatest := costs.foldl (Cost.zipWith Binary.maximum) .zero
  costs.map fun c => p.score (Cost.zipWith share c greatest)

/-- Plans whose score is not above this are never split. -/
def leastSplitScore : Binary32 := .ofDecimal false 1 (-3)

/-- The speed-up of `n` workers when a fraction of the work can be divided. -/
def speedup (fraction : Float32) (n : Nat) : Float32 :=
  1 / (1 - fraction + fraction / (UInt64.ofNat n).toFloat32)

/-- Adds workers while each brings enough; `room` is how many may be added. -/
def addWorkers (fraction least : Float32) (n : Nat) : Nat → Nat
  | 0 => n
  | room + 1 =>
    let gain := speedup fraction (n + 1) - speedup fraction n
    if gain ≤ 0 ∨ gain < least then n else addWorkers fraction least (n + 1) room

/-- The number of workers for a plan of which a part can be divided. -/
def workers (parallelisable total : Cost) (most : Nat) : Nat :=
  let whole := p.score total
  if most ≤ 1 || !leastSplitScore.lt whole then 1
  else
    let sequential := parallelisable.io * p.sequentialIo
    let scalable := { parallelisable with io := parallelisable.io - sequential }
    let fraction := (p.score scalable / whole).clamp .zero (.ofNat 1)
    addWorkers fraction.toFloat32 p.speedupPerWorker.toFloat32 1 (most - 1)

/-- The bytes that stand for the policy in digests. -/
def digestBytes : List UInt8 := p.factors.flatMap fun factor => littleEndian 4 factor.2.toNat

end CostPolicy

end QueryEngine
