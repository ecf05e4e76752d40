import QueryEngine.Column

/-!
# Traits

A trait says something about the output of a node. A node has at most one trait of each kind.
-/

set_option autoImplicit false

namespace QueryEngine

inductive Direction where
  | ascending
  | descending
deriving DecidableEq

def Direction.display : Direction → String
  | ascending => "ASC"
  | descending => "DESC"

/-- Columns to sort by with their directions, the most significant first. -/
abbrev SortOrder := List (Column × Direction)

/-- How many rows are dropped first and how many follow at most. -/
structure RowLimit where
  skip : UInt64
  limit : UInt64
deriving DecidableEq

/-- The sum of two counts, or the largest count if there is no such count. -/
def saturatingAdd (a b : UInt64) : UInt64 :=
  if a ≤ a + b then a + b else UInt64.ofNat (UInt64.size - 1)

namespace RowLimit

/-- The number of rows that a limit reaches. -/
def reach (b : RowLimit) : UInt64 := saturatingAdd b.skip b.limit

/-- The number of rows left of a number of rows. -/
def bounded (b : RowLimit) (rows : UInt64) : UInt64 :=
  let reached := min rows b.reach
  if b.skip ≤ reached then reached - b.skip else 0

end RowLimit

inductive TraitKind where
  | limit
  | order
  | materialized
  | notPartitionable
deriving DecidableEq

namespace TraitKind

def name : TraitKind → String
  | limit => "limit"
  | order => "order"
  | materialized => "materialized"
  | notPartitionable => "not_partitionable"

def all : List TraitKind := [limit, order, materialized, notPartitionable]

def ofName? (name : String) : Option TraitKind := all.find? fun k => k.name == name

end TraitKind

inductive Trait where
  | limit (bounds : RowLimit)
  | order (keys : SortOrder)
  /-- The whole output is in memory before its first tuple is emitted. -/
  | materialized
  /-- The subtree cannot be split. -/
  | notPartitionable
deriving DecidableEq

def Trait.kind : Trait → TraitKind
  | limit _ => .limit
  | order _ => .order
  | materialized => .materialized
  | notPartitionable => .notPartitionable

/-- Traits of different kinds in the order in which their kinds were added. -/
structure TraitSet where
  traits : List Trait
deriving DecidableEq

namespace TraitSet

def empty : TraitSet := ⟨[]⟩

/-- The trait of a kind. -/
def get? (s : TraitSet) (kind : TraitKind) : Option Trait := s.traits.find? (·.kind = kind)

def has (s : TraitSet) (kind : TraitKind) : Bool := (s.get? kind).isSome

/-- Adds a trait in place of one of the same kind. -/
def insert (s : TraitSet) (t : Trait) : TraitSet :=
  if s.has t.kind then ⟨s.traits.map fun u => if u.kind = t.kind then t else u⟩
  else ⟨s.traits ++ [t]⟩

/-- Removes the trait of a kind. -/
def erase (s : TraitSet) (kind : TraitKind) : TraitSet := ⟨s.traits.filter (·.kind ≠ kind)⟩

def limit? (s : TraitSet) : Option RowLimit :=
  match s.get? .limit with
  | some (.limit bounds) => some bounds
  | _ => none

def order? (s : TraitSet) : Option SortOrder :=
  match s.get? .order with
  | some (.order keys) => some keys
  | _ => none

def size (s : TraitSet) : Nat := s.traits.length

end TraitSet

end QueryEngine
