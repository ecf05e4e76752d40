import QueryEngine.Crash

/-!
# Plan caches

A cache keeps a bounded number of entries under keys. A full cache drops the entry that has not
been used for longest.
-/

set_option autoImplicit false

namespace QueryEngine

/-- Entries by key, the one used last first. -/
structure PlanCache (α : Type) where
  capacity : Nat
  entries : List (UInt64 × α)

namespace PlanCache

variable {α : Type}

/-- The size of the largest table of entries that can be addressed. -/
def largestSize : Nat := 252201579132747776

/-- An empty cache with room for one entry at least. -/
def empty (size : Nat) : Except Crash (PlanCache α) :=
  if largestSize < size then .error .noRoom else .ok ⟨max size 1, []⟩

variable (c : PlanCache α)

def size : Nat := c.entries.length

def clear : PlanCache α := { c with entries := [] }

/-- Puts an entry in front and drops what exceeds the capacity. -/
def put (key : UInt64) (a : α) : PlanCache α :=
  { c with entries := ((key, a) :: c.entries.filter (·.1 != key)).take c.capacity }

/-- The entry of a key. -/
def get? (key : UInt64) : Option α := c.entries.lookup key

end PlanCache

end QueryEngine
