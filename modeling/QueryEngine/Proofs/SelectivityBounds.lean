import QueryEngine.Proofs.Estimates

/-!
# Bounds of selectivities

Every estimate that comes to a result is a fraction of the rows. One that moves the limit of a
comparison between the bounds of a column crashes if all numbers of the column are NaNs: the bounds
are then NaNs themselves, and so is the span between them.
-/

set_option autoImplicit false

namespace QueryEngine

/-! ## NaNs -/

namespace Binary

variable {f : BinaryFormat} {x y : Binary f}

theorem isNaN_quieted (h : x.isNaN = true) : x.quieted.isNaN = true := by
  have hle : x.magnitude ≤ x.quieted.magnitude := by
    have hweight : f.signWeight = 2 ^ (f.exponentBits + f.fractionBits) := rfl
    rw [magnitude, magnitude, toNat, toNat, quieted, BitVec.toNat_or, hweight, Nat.or_mod_two_pow]
    exact Nat.left_le_or
  rw [isNaN, decide_eq_true_eq] at h ⊢
  exact Nat.lt_of_lt_of_le h hle

theorem isNaN_combine_left (op : Binary f → Binary f → Binary f) (h : x.isNaN = true)
    (y : Binary f) : (combine op x y).isNaN = true := by
  rw [combine, if_pos h]
  exact isNaN_quieted h

theorem le_eq_false_of_isNaN (h : x.isNaN = true) (y : Binary f) : x.le y = false := by
  rw [← Bool.not_eq_true, le_iff, h]
  exact fun hle => Bool.noConfusion hle.1

/-- What gives way to every other number is a NaN in the end if there is nothing else. -/
theorem isNaN_foldl {choose : Binary f → Binary f → Binary f}
    (hchoose : ∀ x y : Binary f, x.isNaN = true → choose x y = y) {xs : List (Binary f)}
    (hx : x.isNaN = true) (h : ∀ y ∈ xs, y.isNaN = true) : (xs.foldl choose x).isNaN = true := by
  induction xs generalizing x with
  | nil => exact hx
  | cons y xs ih =>
    obtain ⟨hy, hxs⟩ := List.forall_mem_cons.1 h
    rw [List.foldl_cons, hchoose x y hx]
    exact ih hy hxs

end Binary

/-! ## Fractions -/

namespace Selectivity

/-- Whether a selectivity lies between zero and one. -/
def InUnit (a : Selectivity) : Prop :=
  Binary.le .zero a.value = true ∧ a.value.le (.ofNat 1) = true

instance (a : Selectivity) : Decidable a.InUnit := inferInstanceAs (Decidable (_ ∧ _))

theorem inUnit_all : all.InUnit := by decide +kernel

theorem inUnit_nothing : nothing.InUnit := by decide +kernel

theorem inUnit_unknown : unknown.InUnit := by decide +kernel

theorem inUnit_ofFraction (x : Binary32) : (ofFraction x).InUnit := by
  unfold ofFraction
  cases hx : x.isNaN with
  | true => exact inUnit_unknown
  | false =>
    have hzero : (Binary.zero : Binary32).isNaN = false := by decide +kernel
    have hone : (Binary.ofNat 1 : Binary32).isNaN = false := by decide +kernel
    rw [if_neg Bool.false_ne_true]
    unfold Binary.clamp
    split
    · exact inUnit_nothing
    · rename_i hlow
      split
      · exact inUnit_all
      · rename_i hhigh
        rw [Binary.lt_iff] at hlow hhigh
        refine ⟨Binary.le_iff.2 ⟨hzero, hx, ?_⟩, Binary.le_iff.2 ⟨hx, hone, ?_⟩⟩
        · exact Int.not_lt.1 fun hlt => hlow ⟨hx, hzero, hlt⟩
        · exact Int.not_lt.1 fun hlt => hhigh ⟨hone, hx, hlt⟩

theorem apply_le (a : Selectivity) (rows : UInt64) : a.apply rows ≤ rows := by
  have hmin (m n : UInt64) : min m n = if m ≤ n then m else n := rfl
  rw [apply, hmin]
  split
  · assumption
  · exact UInt64.le_refl rows

end Selectivity

/-! ## Comparisons -/

/-- Lists of values by their columns. -/
abbrev ColumnData := List (Column × ColumnType × List Value)

/-- The statistics of lists of values. -/
def ColumnData.statistics (data : ColumnData) : StatisticsMap :=
  data.map fun (c, type, values) => (c, .ofValues type values)

theorem ColumnData.lookup_statistics (data : ColumnData) (c : Column) :
    data.statistics.lookup c =
      (data.lookup c).map fun (type, values) => .ofValues type values := by
  induction data with
  | nil => rfl
  | cons entry data ih =>
    obtain ⟨c', type, values⟩ := entry
    rw [statistics, List.map_cons, List.lookup_cons, List.lookup_cons]
    cases c == c' with
    | true => rfl
    | false => exact ih

/-- Whether the numbers among values are all NaNs, and there are some. -/
def AllNaN (values : List Value) : Prop :=
  numbersOf values ≠ [] ∧ ∀ x ∈ numbersOf values, x.isNaN = true

namespace Comparison

open ColumnStatistics (limit?)

/-- Whether the estimate of a comparison moves a limit between the bounds of its column. -/
def Measures (b : Bindings) : Comparison → Prop
  | relation .greater _ r | relation .greaterEqual _ r | relation .less _ r
  | relation .lessEqual _ r => (limit? b r).isSome = true
  | between _ lower upper => ∃ low high, limit? b lower = some low ∧ limit? b upper = some high ∧
      low.le high = true
  | _ => False

/-- Whether a comparison measures a column of NaNs. -/
def Unmeasurable (data : ColumnData) (b : Bindings) (c : Comparison) : Prop :=
  c.Measures b ∧ ∃ column type values, c.column? = some column ∧
    data.lookup column = some (type, values) ∧ AllNaN values

end Comparison

namespace ColumnStatistics

open Comparison (Measures)

variable {s : ColumnStatistics} {b : Bindings} {c : Comparison}

/-- Whether there are bounds and they are NaNs. -/
def Undefined (s : ColumnStatistics) : Prop :=
  ∃ low high, s.minimum = some low ∧ s.maximum = some high ∧ low.isNaN = true ∧ high.isNaN = true

theorem undefined_ofValues (type : ColumnType) {values : List Value} (h : AllNaN values) :
    (ofValues type values).Undefined := by
  obtain ⟨hne, hall⟩ := h
  cases hnumbers : numbersOf values with
  | nil => exact absurd hnumbers hne
  | cons x xs =>
    rw [hnumbers] at hall
    obtain ⟨hx, hxs⟩ := List.forall_mem_cons.1 hall
    refine ⟨xs.foldl Binary.minimum x, xs.foldl Binary.maximum x, ?_, ?_, ?_, ?_⟩
    · simp only [ofValues, foldl_tighten_none, numbersOf_present, hnumbers]
    · simp only [ofValues, foldl_tighten_none, numbersOf_present, hnumbers]
    · exact Binary.isNaN_foldl (fun _ _ hnan => if_pos hnan) hx hxs
    · exact Binary.isNaN_foldl (fun _ _ hnan => if_pos hnan) hx hxs

theorem clampWithin_error {low : Binary64} (h : low.isNaN = true) (high x : Binary64) :
    clampWithin low high x = .error .undefinedBounds :=
  if_neg (Bool.eq_false_iff.1 (Binary.le_eq_false_of_isNaN h high))

theorem range_error (h : s.Undefined) {lower upper : Option Binary64}
    (hlimit : lower.isSome = true ∨ upper.isSome = true) :
    s.range lower upper = .error .undefinedBounds := by
  obtain ⟨low, high, hlow, hhigh, hnan, hnan'⟩ := h
  have hspan : (high - low).le .zero = false :=
    Binary.le_eq_false_of_isNaN (Binary.isNaN_combine_left _ hnan' low) _
  simp only [range, hlow, hhigh, hspan, Bool.false_eq_true, if_false]
  cases lower with
  | some x => simp [clampWithin_error hnan, bind, Except.bind]
  | none =>
    cases upper with
    | some y => simp [clampWithin_error hnan, bind, Except.bind]
    | none => simp at hlimit

theorem fraction_error (h : s.Undefined) (hc : c.Measures b) :
    s.fraction b c = .error .undefinedBounds := by
  cases c with
  | relation r left right =>
    cases r with
    | equal => cases hc
    | notEqual => cases hc
    | _ =>
      obtain ⟨x, hx⟩ := Option.isSome_iff_exists.1 hc
      simp [fraction, hx, range_error h]
  | between value lower upper =>
    obtain ⟨low, high, hlow, hhigh, hle⟩ := hc
    simp [fraction, hlow, hhigh, hle, range_error h]
  | _ => cases hc

theorem fraction_ok_of_not_measures (s : ColumnStatistics) (hc : ¬ c.Measures b) :
    ∃ x, s.fraction b c = .ok x := by
  cases c with
  | relation r left right =>
    cases r with
    | equal => exact ⟨_, rfl⟩
    | notEqual => exact ⟨_, rfl⟩
    | _ =>
      have hnone : limit? b right = none := Option.not_isSome_iff_eq_none.1 hc
      exact ⟨unknownRange, by simp [fraction, hnone]⟩
  | between value lower upper =>
    cases hlow : limit? b lower with
    | none => exact ⟨unknownRange, by simp [fraction, hlow]⟩
    | some low =>
      cases hhigh : limit? b upper with
      | none => exact ⟨unknownRange, by simp [fraction, hlow, hhigh]⟩
      | some high =>
        have hle : ¬ low.le high = true := fun hle => hc ⟨low, high, hlow, hhigh, hle⟩
        exact ⟨leastEstimate, by simp [fraction, hlow, hhigh, hle]⟩
  | _ => exact ⟨_, rfl⟩

end ColumnStatistics

section

variable {data : ColumnData} {b : Bindings} {c : Comparison}

theorem Comparison.estimate_error (h : c.Unmeasurable data b) :
    c.estimate data.statistics b = .error .undefinedBounds := by
  obtain ⟨hc, column, type, values, hcolumn, hvalues, hnan⟩ := h
  have hfraction := ColumnStatistics.fraction_error (ColumnStatistics.undefined_ofValues type hnan) hc
  rw [estimate, hcolumn, Option.bind_some, data.lookup_statistics, hvalues]
  simp only [Option.map_some, ColumnStatistics.estimate, hfraction, Except.map]

theorem Comparison.exists_estimate (h : ¬ c.Unmeasurable data b) :
    ∃ a, c.estimate data.statistics b = .ok a ∧ a.InUnit := by
  unfold estimate
  split
  · rename_i s hs
    obtain ⟨column, hcolumn, hlookup⟩ := Option.bind_eq_some_iff.1 hs
    rw [data.lookup_statistics] at hlookup
    obtain ⟨⟨type, values⟩, hvalues, rfl⟩ := Option.map_eq_some_iff.1 hlookup
    have hfraction : ∃ x, (ColumnStatistics.ofValues type values).fraction b c = .ok x := by
      by_cases hc : c.Measures b
      · apply ColumnStatistics.fraction_ok
        apply ColumnStatistics.ordered_ofValues
        intro hall
        by_contra hne
        exact h ⟨hc, column, type, values, hcolumn, hvalues, hne, hall⟩
      · exact ColumnStatistics.fraction_ok_of_not_measures _ hc
    obtain ⟨x, hx⟩ := hfraction
    exact ⟨.ofFraction x, by rw [ColumnStatistics.estimate, hx]; rfl, Selectivity.inUnit_ofFraction x⟩
  · exact ⟨.unknown, rfl, Selectivity.inUnit_unknown⟩

end

/-! ## Predicates -/

namespace Predicate

variable {data : ColumnData} {b : Bindings} {p : Predicate}

theorem exists_estimate (h : ∀ atom ∈ p.atoms, ¬ atom.1.Unmeasurable data b) :
    ∃ a, p.estimate data.statistics b = .ok a ∧ a.InUnit := by
  induction p with
  | literal value =>
    cases value with
    | true => exact ⟨_, rfl, Selectivity.inUnit_all⟩
    | false => exact ⟨_, rfl, Selectivity.inUnit_nothing⟩
  | atom c negated =>
    obtain ⟨a, ha, hunit⟩ := Comparison.exists_estimate (h (c, negated) (List.mem_singleton.2 rfl))
    rw [estimate, ha]
    cases negated with
    | true => exact ⟨a.complement, rfl, Selectivity.inUnit_ofFraction _⟩
    | false => exact ⟨a, rfl, hunit⟩
  | both l r ihl ihr =>
    obtain ⟨x, hx, _⟩ := ihl fun atom hatom => h atom (List.mem_append_left _ hatom)
    obtain ⟨y, hy, _⟩ := ihr fun atom hatom => h atom (List.mem_append_right _ hatom)
    exact ⟨x.both y, by rw [estimate, hx, hy]; rfl, Selectivity.inUnit_ofFraction _⟩
  | either l r ihl ihr =>
    obtain ⟨x, hx, _⟩ := ihl fun atom hatom => h atom (List.mem_append_left _ hatom)
    obtain ⟨y, hy, _⟩ := ihr fun atom hatom => h atom (List.mem_append_right _ hatom)
    exact ⟨x.either y, by rw [estimate, hx, hy]; rfl, Selectivity.inUnit_ofFraction _⟩

theorem estimate_error (h : ∃ atom ∈ p.atoms, atom.1.Unmeasurable data b) :
    p.estimate data.statistics b = .error .undefinedBounds := by
  -- The left part is estimated first; the right one is if that comes to a result.
  have hparts {l r : Predicate} (hl : (∃ atom ∈ l.atoms, atom.1.Unmeasurable data b) →
        l.estimate data.statistics b = .error .undefinedBounds)
      (hr : (∃ atom ∈ r.atoms, atom.1.Unmeasurable data b) →
        r.estimate data.statistics b = .error .undefinedBounds)
      (h : ∃ atom ∈ l.atoms ++ r.atoms, atom.1.Unmeasurable data b) :
      l.estimate data.statistics b = .error .undefinedBounds ∨
        (∃ x, l.estimate data.statistics b = .ok x) ∧
          r.estimate data.statistics b = .error .undefinedBounds := by
    by_cases hleft : ∃ atom ∈ l.atoms, atom.1.Unmeasurable data b
    · exact .inl (hl hleft)
    · obtain ⟨x, hx, _⟩ := exists_estimate fun atom hatom hun => hleft ⟨atom, hatom, hun⟩
      obtain ⟨atom, hatom, hun⟩ := h
      refine .inr ⟨⟨x, hx⟩, hr ⟨atom, ?_, hun⟩⟩
      exact (List.mem_append.1 hatom).resolve_left fun hatom => hleft ⟨atom, hatom, hun⟩
  induction p with
  | literal value =>
    obtain ⟨atom, hatom, _⟩ := h
    cases hatom
  | atom c negated =>
    obtain ⟨atom, hatom, hun⟩ := h
    obtain rfl := List.mem_singleton.1 hatom
    rw [estimate, Comparison.estimate_error hun]
    rfl
  | both l r ihl ihr =>
    rcases hparts ihl ihr h with hl | ⟨⟨x, hl⟩, hr⟩
    · rw [estimate, hl]
      rfl
    · rw [estimate, hl, hr]
      rfl
  | either l r ihl ihr =>
    rcases hparts ihl ihr h with hl | ⟨⟨x, hl⟩, hr⟩
    · rw [estimate, hl]
      rfl
    · rw [estimate, hl, hr]
      rfl

/-- With statistics of any values, an estimate comes to a fraction of the rows exactly if no
comparison measures a column of NaNs, and crashes else. -/
theorem estimate_inUnit_iff (data : ColumnData) (b : Bindings) (p : Predicate) :
    ((∃ a, p.estimate data.statistics b = .ok a ∧ a.InUnit ∧ ∀ rows, a.apply rows ≤ rows) ↔
        ∀ atom ∈ p.atoms, ¬ atom.1.Unmeasurable data b) ∧
      ((∃ atom ∈ p.atoms, atom.1.Unmeasurable data b) →
        p.estimate data.statistics b = .error .undefinedBounds) := by
  refine ⟨⟨?_, ?_⟩, estimate_error⟩
  · rintro ⟨a, ha, _⟩ atom hatom hun
    rw [estimate_error ⟨atom, hatom, hun⟩] at ha
    cases ha
  · intro h
    obtain ⟨a, ha, hunit⟩ := exists_estimate h
    exact ⟨a, ha, hunit, a.apply_le⟩

/-- A column whose only value is a NaN cannot be compared with zero. -/
theorem estimate_nan_crashes :
    let c : Column := ⟨"t.x", .double, false⟩
    (Predicate.atom (.relation .greater (.column c) (.literal 0 (some .long))) false).estimate
        (ColumnData.statistics [(c, .double, [.double ⟨0x7ff8000000000000⟩])]) ⟨[some (.long 0)], []⟩ =
      .error .undefinedBounds := by
  rfl

end Predicate

end QueryEngine
