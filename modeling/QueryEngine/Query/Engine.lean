import QueryEngine.Query.Profile
import QueryEngine.Storage.Store

/-!
# What queries share
-/

set_option autoImplicit false

namespace QueryEngine

/-- The stored tables and the counters. -/
structure EngineState where
  store : Store
  profile : Profile

namespace EngineState

def empty : EngineState := ⟨.empty, .empty⟩

/-- Counts `n` more of an item. -/
def count (e : EngineState) (item : ProfileItem) (n : Nat) : EngineState :=
  { e with profile := e.profile.add item n }

end EngineState

end QueryEngine
