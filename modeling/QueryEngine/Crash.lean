/-!
# Crashes

A `Crash` is no error: it ends the computation that met it without a result. What was changed
before it stays changed.
-/

set_option autoImplicit false

namespace QueryEngine

/-- Why a computation ends without a result. -/
inductive Crash where
  /-- A range was clamped to bounds that are not numbers. -/
  | undefinedBounds
  /-- A function gave up. -/
  | aborted
  /-- A tuple has no value for one of its columns. -/
  | missingValue
  /-- More room was asked for than there can be. -/
  | noRoom
  /-- A place beyond the end of a text was asked for. -/
  | outOfBounds
deriving DecidableEq

end QueryEngine
