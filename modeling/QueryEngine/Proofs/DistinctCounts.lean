import Mathlib.Data.Finset.Card
import QueryEngine.Statistics

/-!
# Counts of different values

Statistics count hashes in place of values. A word hash ends with a product by an odd factor, which
can be undone, so that words mixed into one and the same hash are told apart. A scalar feeds one
word after its kind: among the values of one scalar kind there are as many hashes as values.
-/

set_option autoImplicit false

namespace QueryEngine

namespace WordMix

/-- What undoes a product by the factor. -/
def inverse : UInt64 := 0x2040003d780970bd

theorem factor_mul_inverse : factor * inverse = 1 := by decide

theorem add_inj {h a b : UInt64} (hab : add h a = add h b) : a = b := by
  have hundo (w : UInt64) : w * factor * inverse = w := by
    rw [UInt64.mul_assoc, factor_mul_inverse, UInt64.mul_one]
  have hproduct := congrArg (· * inverse) hab
  simp only [add, hundo] at hproduct
  exact (UInt64.xor_right_inj _).1 hproduct

end WordMix

/-! ## Scalars -/

namespace Value

/-- The kinds of values that are one word each. -/
def scalarKinds : List ColumnType := [.boolean, .long, .float, .double]

/-- The scalars of each kind. -/
inductive IsScalar : ColumnType → Value → Prop
  | bool (b : Bool) : IsScalar .boolean (.bool b)
  | long (n : Int64) : IsScalar .long (.long n)
  | float (x : Binary32) : IsScalar .float (.float x)
  | double (x : Binary64) : IsScalar .double (.double x)

/-- The word that a scalar feeds after its kind. -/
def word : Value → UInt64
  | bool b => b.toUInt8.toUInt64
  | long n => n.toUInt64
  | float x => (UInt32.ofNat x.toNat).toUInt64
  | double x => UInt64.ofNat x.toNat
  | _ => 0

/-- The scalar of a kind with this word. -/
def ofWord : ColumnType → UInt64 → Value
  | .boolean, w => bool (w != 0)
  | .long, w => long w.toInt64
  | .float, w => float ⟨BitVec.ofNat _ w.toNat⟩
  | .double, w => double ⟨BitVec.ofNat _ w.toNat⟩
  | _, _ => null

variable {kind : ColumnType} {v w : Value}

theorem isScalar_of_accepts (hkind : kind ∈ scalarKinds) (hv : kind.accepts v = true)
    (hnull : v ≠ null) : IsScalar kind v := by
  simp only [scalarKinds, List.mem_cons, List.not_mem_nil, or_false] at hkind
  rcases hkind with rfl | rfl | rfl | rfl
  · cases v with
    | null => exact absurd rfl hnull
    | bool b => exact .bool b
    | _ => cases hv
  · cases v with
    | null => exact absurd rfl hnull
    | long n => exact .long n
    | _ => cases hv
  · cases v with
    | null => exact absurd rfl hnull
    | float x => exact .float x
    | _ => cases hv
  · cases v with
    | null => exact absurd rfl hnull
    | double x => exact .double x
    | _ => cases hv

theorem ofWord_word (h : IsScalar kind v) : ofWord kind v.word = v := by
  cases h with
  | bool b => cases b <;> rfl
  | long n => rfl
  | float x =>
    have hx : x.toNat < 2 ^ 32 := x.bits.isLt
    have hword : (UInt32.ofNat x.toNat).toUInt64.toNat = x.toNat := by
      rw [UInt32.toNat_toUInt64, UInt32.toNat_ofNat', Nat.mod_eq_of_lt hx]
    have hbits : BitVec.ofNat BinaryFormat.single.width x.toNat = x.bits := BitVec.ofNat_toNat ..
    simp only [word, ofWord, hword, hbits]
  | double x =>
    have hx : x.toNat < 2 ^ 64 := x.bits.isLt
    have hword : (UInt64.ofNat x.toNat).toNat = x.toNat := by
      rw [UInt64.toNat_ofNat', Nat.mod_eq_of_lt hx]
    have hbits : BitVec.ofNat BinaryFormat.double.width x.toNat = x.bits := BitVec.ofNat_toNat ..
    simp only [word, ofWord, hword, hbits]

theorem wordHash_eq (h : IsScalar kind v) :
    v.wordHash = WordMix.add (WordMix.add 0 v.kindRank.toUInt64) v.word := by
  cases h <;> rfl

theorem kindRank_eq (hv : IsScalar kind v) (hw : IsScalar kind w) : v.kindRank = w.kindRank := by
  cases hv <;> cases hw <;> rfl

/-- Different scalars of one kind have different hashes. -/
theorem wordHash_inj (hv : IsScalar kind v) (hw : IsScalar kind w) (h : v.wordHash = w.wordHash) :
    v = w := by
  rw [wordHash_eq hv, wordHash_eq hw, kindRank_eq hv hw] at h
  calc v = ofWord kind v.word := (ofWord_word hv).symm
    _ = ofWord kind w.word := congrArg _ (WordMix.add_inj h)
    _ = w := ofWord_word hw

end Value

/-! ## Counts -/

theorem nodup_eraseDups {α : Type} [DecidableEq α] (xs : List α) : xs.eraseDups.Nodup := by
  induction hn : xs.length using Nat.strong_induction_on generalizing xs with
  | _ n ih =>
    cases xs with
    | nil => exact List.nodup_nil
    | cons a rest =>
      have hshorter : (rest.filter fun b => !b == a).length < n := by
        have hle := List.length_filter_le (fun b => !b == a) rest
        rw [List.length_cons] at hn
        omega
      rw [List.eraseDups_cons, List.nodup_cons]
      refine ⟨?_, ih _ hshorter _ rfl⟩
      intro ha
      simpa using List.of_mem_filter (List.mem_eraseDups.1 ha)

theorem length_eraseDups {α : Type} [DecidableEq α] (xs : List α) :
    xs.eraseDups.length = xs.toFinset.card := by
  rw [← List.toFinset_card_of_nodup (nodup_eraseDups xs)]
  congr 1
  ext a
  rw [List.mem_toFinset, List.mem_toFinset, List.mem_eraseDups]

namespace ColumnStatistics

variable (type : ColumnType) (values : List Value)

theorem nulls_ofValues : (ofValues type values).nulls = values.count .null := by
  have hnull : (fun v : Value => !!v.isNull) = (· == Value.null) := by
    funext v
    cases v <;> rfl
  have hsplit := List.length_eq_length_filter_add (l := values) fun v => !v.isNull
  rw [hnull, ← List.count_eq_length_filter] at hsplit
  show values.length - (values.filter fun v => !v.isNull).length = _
  omega

/-- The values are counted by their hashes. -/
theorem distinct_ofValues :
    (ofValues type values).distinct =
      ((values.toFinset.erase .null).image Value.wordHash).card := by
  have hpresent (v : Value) : v ≠ .null ↔ (!v.isNull) = true := by
    cases v <;> simp [Value.isNull]
  refine (length_eraseDups _).trans (congrArg Finset.card ?_)
  ext h
  simp only [List.mem_toFinset, List.mem_map, List.mem_filter, Finset.mem_image, Finset.mem_erase,
    hpresent, and_comm]

/-- All counts of a column of scalars are exact. -/
theorem counts_exact {kind : ColumnType} (hkind : kind ∈ Value.scalarKinds)
    (hvalues : ∀ v ∈ values, kind.accepts v = true) :
    (ofValues type values).rows = values.length ∧
    (ofValues type values).nulls = values.count .null ∧
    (ofValues type values).distinct = (values.toFinset.erase .null).card := by
  refine ⟨rfl, nulls_ofValues type values, ?_⟩
  rw [distinct_ofValues]
  apply Finset.card_image_of_injOn
  intro v hv w hw h
  have hscalar : ∀ u ∈ values.toFinset.erase .null, Value.IsScalar kind u := by
    intro u hu
    obtain ⟨hnull, hmem⟩ := Finset.mem_erase.1 hu
    exact Value.isScalar_of_accepts hkind (hvalues u (List.mem_toFinset.1 hmem)) hnull
  exact Value.wordHash_inj (hscalar v hv) (hscalar w hw) h

/-- Zeros of both signs and two NaNs are four values, and nulls are none. -/
theorem counts_exact_zeros :
    let values : List Value := [.double ⟨0⟩, .null, .double ⟨0x8000000000000000⟩, .double ⟨0⟩,
      .double ⟨0x7ff8000000000000⟩, .null, .double ⟨0x7ff8000000000001⟩]
    .double ∈ Value.scalarKinds ∧ (∀ v ∈ values, ColumnType.double.accepts v = true) ∧
      (ofValues .double values).rows = 7 ∧ (ofValues .double values).nulls = 2 ∧
      (ofValues .double values).distinct = 4 := by
  intro values
  have hkind : .double ∈ Value.scalarKinds := by decide
  have hvalues : ∀ v ∈ values, ColumnType.double.accepts v = true := by decide
  obtain ⟨hrows, hnulls, hdistinct⟩ := counts_exact .double values hkind hvalues
  exact ⟨hkind, hvalues, hrows, hnulls.trans (by decide), hdistinct.trans (by decide)⟩

/-- The number types share their place among the kinds, so equal words of two types count once. -/
example : (ofValues .double [.double ⟨0⟩, .long 0]).distinct = 1 := by decide

end ColumnStatistics

end QueryEngine
