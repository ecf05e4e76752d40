/-!
# Profiles

Counters of what planning and running queries have done.
-/

set_option autoImplicit false

namespace QueryEngine

/-- What is counted. -/
inductive ProfileItem where
  /-- Plans produced. -/
  | plan
  /-- Plans taken from a cache. -/
  | cacheHits
  /-- Rewrite rules fired. -/
  | rules
  /-- Operators set up. -/
  | lower
  /-- Pulls on the results of queries. -/
  | pull
  /-- Sorts in memory. -/
  | sort
  /-- Evaluations of predicates. -/
  | filter
deriving DecidableEq

structure Profile where
  plan : Nat
  cacheHits : Nat
  rules : Nat
  lower : Nat
  pull : Nat
  sort : Nat
  filter : Nat
deriving DecidableEq

namespace Profile

def empty : Profile := ⟨0, 0, 0, 0, 0, 0, 0⟩

/-- Counts `n` more of an item. -/
def add (p : Profile) (item : ProfileItem) (n : Nat) : Profile :=
  match item with
  | .plan => { p with plan := p.plan + n }
  | .cacheHits => { p with cacheHits := p.cacheHits + n }
  | .rules => { p with rules := p.rules + n }
  | .lower => { p with lower := p.lower + n }
  | .pull => { p with pull := p.pull + n }
  | .sort => { p with sort := p.sort + n }
  | .filter => { p with filter := p.filter + n }

/-- The counters under their names. -/
def items (p : Profile) : List (String × Nat) :=
  [("plan", p.plan), ("cache_hits", p.cacheHits), ("rules", p.rules), ("lower", p.lower),
    ("stream_iter", p.pull), ("sort", p.sort), ("filter", p.filter)]

end Profile

end QueryEngine
