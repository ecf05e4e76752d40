import QueryEngine.Predicate.Basic
import QueryEngine.Selectivity

/-!
# Statistics of columns

Counts and numeric bounds of a column's values give estimates for comparisons on that column; a
predicate is estimated from its comparisons.
-/

set_option autoImplicit false

namespace QueryEngine

structure ColumnStatistics where
  type : ColumnType
  rows : Nat
  nulls : Nat
  /-- The number of different values that are not null. -/
  distinct : Nat
  minimum : Option Binary64
  maximum : Option Binary64
  /-- The average width of a value in bytes. -/
  width : Nat

namespace ColumnStatistics

/-- The statistics of a column without rows. -/
def empty (type : ColumnType) : ColumnStatistics :=
  ⟨type, 0, 0, 0, none, none, type.physicalSize⟩

/-- Narrows a bound down by a further number. -/
def tighten (choose : Binary64 → Binary64 → Binary64) (bound : Option Binary64) (v : Value) :
    Option Binary64 :=
  match v.number? with
  | none => bound
  | some x => some ((bound.map fun b => choose b x).getD x)

/-- The width of a value in bytes; all but texts have the width of their column's type. -/
def widthOf (type : ColumnType) : Value → Nat
  | .text s => s.utf8ByteSize
  | _ => type.physicalSize

/-- The statistics of a list of values. Different values are told apart by their hashes. -/
def ofValues (type : ColumnType) (values : List Value) : ColumnStatistics :=
  let present := values.filter fun v => !v.isNull
  let bytes := sizeWord (present.foldl (fun n v => n + widthOf type v) 0)
  { type := type
    rows := values.length
    nulls := values.length - present.length
    distinct := (present.map Value.wordHash).eraseDups.length
    minimum := present.foldl (tighten Binary.minimum) none
    maximum := present.foldl (tighten Binary.maximum) none
    width := if present.isEmpty then (empty type).width else max (bytes / present.length) 1 }

/-! ## Estimates -/

/-- The estimate of an equality where nothing is known. -/
def unknownEquality : Binary32 := .ofDecimal false 5 (-2)

/-- The estimate of a range where nothing is known. -/
def unknownRange : Binary32 := .ofDecimal false 3 (-1)

/-- No predicate is taken as empty. -/
def leastEstimate : Binary32 := .ofDecimal false 1 (-6)

variable (s : ColumnStatistics)

/-- The fraction of rows whose value is not null. -/
def presentFraction : Binary32 :=
  if s.rows = 0 then .ofNat 1 else .ofNat (s.rows - min s.nulls s.rows) / .ofNat s.rows

/-- The fraction of rows that one value is expected to have. -/
def equality : Binary32 :=
  if s.distinct = 0 then unknownEquality
  else (s.presentFraction / .ofNat s.distinct).maximum leastEstimate

/-- Moves a number into the interval between two bounds, which must be numbers in order. -/
def clampWithin (low high x : Binary64) : Except Crash Binary64 :=
  if low.le high then .ok (x.clamp low high) else .error .undefinedBounds

/-- The fraction of rows within a range; an absent limit leaves its side open. -/
def range (lower upper : Option Binary64) : Except Crash Binary32 :=
  match s.minimum, s.maximum with
  | some low, some high =>
    let span := high - low
    if span.le .zero then
      let covered := lower.all (·.le low) && upper.all (high.le ·)
      .ok (if covered then .ofNat 1 else leastEstimate)
    else do
      let first ← (lower.map (clampWithin low high)).getD (.ok low)
      let last ← (upper.map (clampWithin low high)).getD (.ok high)
      let fraction := ((last - first) / span).clamp .zero (.ofNat 1)
      return (fraction.narrow * s.presentFraction).maximum leastEstimate
  | _, _ => .ok unknownRange

/-- The value of a literal as a number, if it has one. -/
def limit? (b : Bindings) : Binding → Option Binary64
  | .literal slot _ => (b.literal slot).toOption.bind Value.number?
  | _ => none

/-- The number of values that an entry of a list stands for. -/
def entryCount (b : Bindings) : Binding → Nat
  | .subquery group _ => ((b.subquery? group).map List.length).getD 1
  | _ => 1

/-- The fraction of rows for which a comparison on this column is expected to hold. -/
def fraction (b : Bindings) : Comparison → Except Crash Binary32
  | .relation .equal _ _ => .ok s.equality
  | .relation .notEqual _ _ => .ok ((s.presentFraction - s.equality).maximum leastEstimate)
  | .relation .greater _ r | .relation .greaterEqual _ r =>
    match limit? b r with
    | some x => s.range (some x) none
    | none => .ok unknownRange
  | .relation .less _ r | .relation .lessEqual _ r =>
    match limit? b r with
    | some x => s.range none (some x)
    | none => .ok unknownRange
  | .between _ lower upper =>
    match limit? b lower, limit? b upper with
    | some low, some high =>
      if low.le high then s.range (some low) (some high) else .ok leastEstimate
    | _, _ => .ok unknownRange
  | .oneOf _ list => .ok (s.equality * .ofNat (list.foldl (fun n e => n + entryCount b e) 0))
  | .isNull _ =>
    .ok (if s.rows = 0 then leastEstimate
      else (.ofNat s.nulls / .ofNat s.rows : Binary32).maximum leastEstimate)
  | .like .. => .ok unknownRange

def estimate (b : Bindings) (c : Comparison) : Except Crash Selectivity :=
  (s.fraction b c).map Selectivity.ofFraction

end ColumnStatistics

/-- The known statistics by column. -/
abbrev StatisticsMap := List (Column × ColumnStatistics)

/-- The estimate of a comparison from the statistics of the column that it tests. -/
def Comparison.estimate (known : StatisticsMap) (b : Bindings) (c : Comparison) :
    Except Crash Selectivity :=
  match c.column?.bind fun column => known.lookup column with
  | some s => s.estimate b c
  | none => .ok .unknown

/-- The estimate of a predicate. -/
def Predicate.estimate (known : StatisticsMap) (b : Bindings) :
    Predicate → Except Crash Selectivity
  | literal value => .ok (if value then .all else .nothing)
  | atom c negated => (c.estimate known b).map fun s => if negated then s.complement else s
  | both l r => do
    let x ← estimate known b l
    let y ← estimate known b r
    return x.both y
  | either l r => do
    let x ← estimate known b l
    let y ← estimate known b r
    return x.either y

end QueryEngine
