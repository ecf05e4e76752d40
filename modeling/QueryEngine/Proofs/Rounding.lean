import Mathlib.Algebra.Order.Field.Rat
import Mathlib.Data.Int.Log
import Mathlib.Data.Rat.Floor
import Mathlib.Tactic.Ring
import QueryEngine.Binary.Number

/-!
# Rounding

Rounding to the nearest number keeps the order of quotients. Where two quotients share a last place
this is rounding to natural numbers; where they do not, the magnitudes with the larger last place
begin where those with the smaller one end.
-/

set_option autoImplicit false

namespace QueryEngine

namespace BinaryFormat

/-! ## Natural numbers -/

section

variable {n d n' d' k : Nat}

theorem div_le_div_of_mul_le (hd : 0 < d) (hd' : 0 < d') (h : n * d' ≤ n' * d) :
    n / d ≤ n' / d' := by
  rw [Nat.le_div_iff_mul_le hd']
  refine Nat.le_of_mul_le_mul_right ?_ hd
  calc n / d * d' * d = n / d * d * d' := Nat.mul_right_comm _ _ _
    _ ≤ n * d' := Nat.mul_le_mul_right _ (Nat.div_mul_le_self n d)
    _ ≤ n' * d := h

/-- Of two quotients with the same whole part the remainders have the order. -/
theorem mod_mul_le_of_div_eq (hq : n / d = n' / d') (h : n * d' ≤ n' * d) :
    n % d * d' ≤ n' % d' * d := by
  have hn : n * d' = n / d * (d * d') + n % d * d' := by
    conv_lhs => rw [← Nat.div_add_mod n d]
    ring
  have hn' : n' * d = n / d * (d * d') + n' % d' * d := by
    conv_lhs => rw [← Nat.div_add_mod n' d']
    rw [hq]
    ring
  omega

theorem divideToEven_le (hd : 0 < d) (hd' : 0 < d') (h : n * d' ≤ n' * d) :
    divideToEven n d ≤ divideToEven n' d' := by
  unfold divideToEven
  dsimp only
  rcases Nat.lt_or_eq_of_le (div_le_div_of_mul_le hd hd' h) with hlt | heq
  · split <;> split <;> omega
  · have hrest := mod_mul_le_of_div_eq heq h
    rw [heq]
    split
    · rename_i hup
      rw [if_pos]
      rcases hup with hup | ⟨htie, hodd⟩
      · have hlt : d * d' < 2 * (n' % d') * d :=
          calc d * d' < 2 * (n % d) * d' := Nat.mul_lt_mul_of_pos_right hup hd'
            _ = 2 * (n % d * d') := Nat.mul_assoc _ _ _
            _ ≤ 2 * (n' % d' * d) := Nat.mul_le_mul_left _ hrest
            _ = 2 * (n' % d') * d := (Nat.mul_assoc _ _ _).symm
        rw [Nat.mul_comm d d'] at hlt
        exact .inl (Nat.lt_of_mul_lt_mul_right hlt)
      · have hle : d * d' ≤ 2 * (n' % d') * d :=
          calc d * d' = 2 * (n % d) * d' := by rw [htie]
            _ = 2 * (n % d * d') := Nat.mul_assoc _ _ _
            _ ≤ 2 * (n' % d' * d) := Nat.mul_le_mul_left _ hrest
            _ = 2 * (n' % d') * d := (Nat.mul_assoc _ _ _).symm
        rw [Nat.mul_comm d d'] at hle
        have hhalf := Nat.le_of_mul_le_mul_right hle hd
        omega
    · split <;> omega

theorem divideToEven_one (k : Nat) : divideToEven k 1 = k := by
  simp [divideToEven, Nat.mod_one]

theorem divideToEven_le_of_le (hd : 0 < d) (h : n ≤ k * d) : divideToEven n d ≤ k := by
  have hle := divideToEven_le hd Nat.one_pos ((Nat.mul_one n).le.trans h)
  rwa [divideToEven_one] at hle

theorem le_divideToEven (hd : 0 < d) (h : k * d ≤ n) : k ≤ divideToEven n d := by
  have hle := divideToEven_le Nat.one_pos hd (h.trans (Nat.mul_one n).ge)
  rwa [divideToEven_one] at hle

end

/-! ## Powers of two -/

theorem powerOfTwo_pos (e : Int) : 0 < (powerOfTwo e).1 ∧ 0 < (powerOfTwo e).2 :=
  ⟨Nat.pow_pos Nat.two_pos, Nat.pow_pos Nat.two_pos⟩

theorem cast_two_pow (n : Nat) : ((2 ^ n : Nat) : ℚ) = (2 : ℚ) ^ (n : Int) :=
  (Nat.cast_pow 2 n).trans (zpow_natCast 2 n).symm

theorem powerOfTwo_eq (e : Int) : ((powerOfTwo e).1 : ℚ) = 2 ^ e * ((powerOfTwo e).2 : ℚ) := by
  have hfirst : ((powerOfTwo e).1 : ℚ) = 2 ^ (e.toNat : Int) := cast_two_pow e.toNat
  have hsecond : ((powerOfTwo e).2 : ℚ) = 2 ^ ((-e).toNat : Int) := cast_two_pow (-e).toNat
  rw [hfirst, hsecond, ← zpow_add₀ two_ne_zero]
  congr 1
  omega

theorem log2_bounds {n : Nat} (hn : 0 < n) :
    (2 : ℚ) ^ (n.log2 : Int) ≤ n ∧ (n : ℚ) < 2 ^ ((n.log2 : Int) + 1) := by
  have hlow : 2 ^ n.log2 ≤ n := Nat.log2_self_le (Nat.ne_of_gt hn)
  have hhigh : n < 2 ^ (n.log2 + 1) := Nat.lt_log2_self
  have hhigh' := (Nat.cast_lt (α := ℚ)).2 hhigh
  rw [cast_two_pow, Nat.cast_succ] at hhigh'
  exact ⟨cast_two_pow n.log2 ▸ Nat.cast_le.2 hlow, hhigh'⟩

section

variable {num den num' den' : Nat} {e : Int} {k : Nat}

theorem scaled_le_iff (hden : 0 < den) :
    num * (powerOfTwo e).2 ≤ k * (den * (powerOfTwo e).1) ↔ (num / den : ℚ) ≤ k * 2 ^ e := by
  have hq : (0 : ℚ) < (powerOfTwo e).2 := Nat.cast_pos.2 (powerOfTwo_pos e).2
  have hscaled : (k : ℚ) * (den * (2 ^ e * (powerOfTwo e).2)) = k * 2 ^ e * den * (powerOfTwo e).2 := by
    ring
  rw [div_le_iff₀ (Nat.cast_pos.2 hden), ← Nat.cast_le (α := ℚ)]
  push_cast
  rw [powerOfTwo_eq e, hscaled, mul_le_mul_iff_left₀ hq]

theorem le_scaled_iff (hden : 0 < den) :
    k * (den * (powerOfTwo e).1) ≤ num * (powerOfTwo e).2 ↔ k * 2 ^ e ≤ (num / den : ℚ) := by
  have hq : (0 : ℚ) < (powerOfTwo e).2 := Nat.cast_pos.2 (powerOfTwo_pos e).2
  have hscaled : (k : ℚ) * (den * (2 ^ e * (powerOfTwo e).2)) = k * 2 ^ e * den * (powerOfTwo e).2 := by
    ring
  rw [le_div_iff₀ (Nat.cast_pos.2 hden), ← Nat.cast_le (α := ℚ)]
  push_cast
  rw [powerOfTwo_eq e, hscaled, mul_le_mul_iff_left₀ hq]

/-- The difference of the logarithms is at most one too large. -/
theorem quotient_bounds (hnum : 0 < num) (hden : 0 < den) :
    (2 : ℚ) ^ ((num.log2 : Int) - den.log2 - 1) ≤ num / den ∧
      (num / den : ℚ) < 2 ^ ((num.log2 : Int) - den.log2 + 1) := by
  obtain ⟨hlow, hhigh⟩ := log2_bounds hnum
  obtain ⟨hlow', hhigh'⟩ := log2_bounds hden
  have hd : (0 : ℚ) < den := Nat.cast_pos.2 hden
  constructor
  · rw [le_div_iff₀ hd]
    calc (2 : ℚ) ^ ((num.log2 : Int) - den.log2 - 1) * den
        ≤ 2 ^ ((num.log2 : Int) - den.log2 - 1) * 2 ^ ((den.log2 : Int) + 1) :=
          mul_le_mul_of_nonneg_left hhigh'.le (zpow_nonneg zero_le_two _)
      _ = 2 ^ (num.log2 : Int) := by rw [← zpow_add₀ two_ne_zero]; congr 1; omega
      _ ≤ num := hlow
  · rw [div_lt_iff₀ hd]
    calc (num : ℚ) < 2 ^ ((num.log2 : Int) + 1) := hhigh
      _ = 2 ^ ((num.log2 : Int) - den.log2 + 1) * 2 ^ (den.log2 : Int) := by
        rw [← zpow_add₀ two_ne_zero]; congr 1; omega
      _ ≤ 2 ^ ((num.log2 : Int) - den.log2 + 1) * den :=
        mul_le_mul_of_nonneg_left hlow' (zpow_nonneg zero_le_two _)

theorem exponentOf_eq (hnum : 0 < num) (hden : 0 < den) :
    exponentOf num den = Int.log 2 (num / den : ℚ) := by
  have hpos : (0 : ℚ) < num / den := div_pos (Nat.cast_pos.2 hnum) (Nat.cast_pos.2 hden)
  obtain ⟨hlower, hupper⟩ := quotient_bounds hnum hden
  have hge : (num.log2 : Int) - den.log2 - 1 ≤ Int.log 2 (num / den : ℚ) :=
    (Int.zpow_le_iff_le_log one_lt_two hpos).1 (by exact_mod_cast hlower)
  have hlt : Int.log 2 (num / den : ℚ) < (num.log2 : Int) - den.log2 + 1 :=
    (Int.lt_zpow_iff_log_lt one_lt_two hpos).1 (by exact_mod_cast hupper)
  have hguess : den * (powerOfTwo ((num.log2 : Int) - den.log2)).1 ≤
        num * (powerOfTwo ((num.log2 : Int) - den.log2)).2 ↔
      (num.log2 : Int) - den.log2 ≤ Int.log 2 (num / den : ℚ) := by
    have hscaled := @le_scaled_iff num den ((num.log2 : Int) - den.log2) 1 hden
    rw [Nat.one_mul, Nat.cast_one, one_mul] at hscaled
    rw [hscaled]
    exact_mod_cast Int.zpow_le_iff_le_log (b := 2) one_lt_two hpos
  unfold exponentOf
  dsimp only
  split
  · rename_i h
    have hle := hguess.1 h
    omega
  · rename_i h
    have hnot := mt hguess.2 h
    omega

end

/-! ## Magnitudes -/

section

variable (f : BinaryFormat) {num den num' den' : Nat}

/-- The exponent of the last place to which a quotient is rounded. -/
def lastPlace (num den : Nat) : Int := max (exponentOf num den - f.fractionBits) f.leastScale

/-- A quotient in units of a last place. -/
def rounded (place : Int) (num den : Nat) : Nat :=
  divideToEven (num * (powerOfTwo place).2) (den * (powerOfTwo place).1)

theorem nearest_eq (hnum : 0 < num) (den : Nat) :
    f.nearest num den =
      min ((f.lastPlace num den - f.leastScale).toNat * 2 ^ f.fractionBits +
        rounded (f.lastPlace num den) num den) f.infinity :=
  if_neg (Nat.ne_of_gt hnum)

theorem lastPlace_le (hnum : 0 < num) (hden : 0 < den) (hden' : 0 < den')
    (h : num * den' ≤ num' * den) : f.lastPlace num den ≤ f.lastPlace num' den' := by
  have hnum' : 0 < num' := Nat.pos_of_mul_pos_right ((Nat.mul_pos hnum hden').trans_le h)
  have hpos : (0 : ℚ) < num / den := div_pos (Nat.cast_pos.2 hnum) (Nat.cast_pos.2 hden)
  have hquotients : (num / den : ℚ) ≤ num' / den' := by
    rw [div_le_div_iff₀ (Nat.cast_pos.2 hden) (Nat.cast_pos.2 hden')]
    exact_mod_cast h
  rw [lastPlace, lastPlace, exponentOf_eq hnum hden, exponentOf_eq hnum' hden']
  exact max_le_max_right _ (Int.sub_le_sub_right (Int.log_mono_right hpos hquotients) _)

theorem rounded_le (place : Int) (hden : 0 < den) (hden' : 0 < den')
    (h : num * den' ≤ num' * den) : rounded place num den ≤ rounded place num' den' := by
  obtain ⟨hpos, _⟩ := powerOfTwo_pos place
  apply divideToEven_le (Nat.mul_pos hden hpos) (Nat.mul_pos hden' hpos)
  rw [Nat.mul_mul_mul_comm, Nat.mul_mul_mul_comm num']
  exact Nat.mul_le_mul_right _ h

/-- The units of the last place carry over at most once. -/
theorem rounded_lastPlace_le (hnum : 0 < num) (hden : 0 < den) :
    rounded (f.lastPlace num den) num den ≤ 2 ^ (f.fractionBits + 1) := by
  have hplace : exponentOf num den - f.fractionBits ≤ f.lastPlace num den := le_max_left _ _
  apply divideToEven_le_of_le (Nat.mul_pos hden (powerOfTwo_pos _).1)
  rw [scaled_le_iff hden, Nat.cast_pow, Nat.cast_two, ← zpow_natCast, ← zpow_add₀ two_ne_zero]
  have hlt : (num / den : ℚ) < 2 ^ (Int.log 2 (num / den : ℚ) + 1) := by
    exact_mod_cast Int.lt_zpow_succ_log_self (b := 2) one_lt_two (num / den : ℚ)
  rw [← exponentOf_eq hnum hden] at hlt
  exact hlt.le.trans (zpow_le_zpow_right₀ one_le_two (by push_cast; omega))

/-- All units are used unless the last place is the least one. -/
theorem le_rounded_lastPlace (hnum : 0 < num) (hden : 0 < den)
    (h : f.leastScale < f.lastPlace num den) :
    2 ^ f.fractionBits ≤ rounded (f.lastPlace num den) num den := by
  have hplace : f.lastPlace num den = exponentOf num den - f.fractionBits :=
    max_eq_left_of_lt (lt_max_iff.1 h |>.resolve_right (lt_irrefl _))
  have hpos : (0 : ℚ) < num / den := div_pos (Nat.cast_pos.2 hnum) (Nat.cast_pos.2 hden)
  apply le_divideToEven (Nat.mul_pos hden (powerOfTwo_pos _).1)
  rw [le_scaled_iff hden, hplace, Nat.cast_pow, Nat.cast_two, ← zpow_natCast,
    ← zpow_add₀ two_ne_zero, add_sub_cancel, exponentOf_eq hnum hden]
  exact_mod_cast Int.zpow_log_le_self (b := 2) one_lt_two hpos

/-- Rounding to the nearest magnitude keeps the order of quotients. -/
theorem nearest_le (hden : 0 < den) (hden' : 0 < den') (h : num * den' ≤ num' * den) :
    f.nearest num den ≤ f.nearest num' den' := by
  rcases Nat.eq_zero_or_pos num with rfl | hnum
  · exact Nat.zero_le _
  · have hnum' : 0 < num' := Nat.pos_of_mul_pos_right ((Nat.mul_pos hnum hden').trans_le h)
    rw [nearest_eq f hnum, nearest_eq f hnum']
    refine min_le_min_right _ ?_
    rcases (f.lastPlace_le hnum hden hden' h).lt_or_eq with hlt | heq
    · have hleast : f.leastScale ≤ f.lastPlace num den := le_max_right _ _
      have htop := f.rounded_lastPlace_le hnum hden
      have hbottom := f.le_rounded_lastPlace hnum' hden' (hleast.trans_lt hlt)
      have hplaces : (f.lastPlace num den - f.leastScale).toNat + 1 ≤
          (f.lastPlace num' den' - f.leastScale).toNat := by omega
      calc (f.lastPlace num den - f.leastScale).toNat * 2 ^ f.fractionBits +
            rounded (f.lastPlace num den) num den
          ≤ (f.lastPlace num den - f.leastScale).toNat * 2 ^ f.fractionBits +
            2 ^ (f.fractionBits + 1) := Nat.add_le_add_left htop _
        _ = ((f.lastPlace num den - f.leastScale).toNat + 1) * 2 ^ f.fractionBits +
            2 ^ f.fractionBits := by ring
        _ ≤ (f.lastPlace num' den' - f.leastScale).toNat * 2 ^ f.fractionBits +
            rounded (f.lastPlace num' den') num' den' :=
          Nat.add_le_add (Nat.mul_le_mul_right _ hplaces) hbottom
    · rw [← heq]
      exact Nat.add_le_add_left (rounded_le _ hden hden' h) _

theorem nearest_le_infinity (num den : Nat) : f.nearest num den ≤ f.infinity := by
  unfold nearest
  split
  · exact Nat.zero_le _
  · exact min_le_right _ _

theorem two_pow_width : 2 ^ f.width = 2 * f.signWeight := by
  rw [width, signWeight, Nat.add_assoc, Nat.pow_add]
  rfl

theorem infinity_lt_signWeight : f.infinity < f.signWeight := by
  have hpos : 0 < Nat.pow 2 f.exponentBits := Nat.pow_pos Nat.two_pos
  have hfraction : 0 < Nat.pow 2 f.fractionBits := Nat.pow_pos Nat.two_pos
  have hweight : f.signWeight = Nat.pow 2 f.exponentBits * Nat.pow 2 f.fractionBits :=
    Nat.pow_add 2 f.exponentBits f.fractionBits
  rw [hweight, infinity]
  exact Nat.mul_lt_mul_of_pos_right (Nat.sub_lt hpos Nat.one_pos) hfraction

end

end BinaryFormat

/-! ## Numbers -/

namespace Binary

variable {f : BinaryFormat}

section

variable {negative : Bool} {m : Nat}

theorem toNat_ofMagnitude (h : m < f.signWeight) :
    (ofMagnitude negative m : Binary f).toNat = if negative then f.signWeight + m else m := by
  rw [toNat, ofMagnitude, BitVec.toNat_ofNat, f.two_pow_width]
  apply Nat.mod_eq_of_lt
  split <;> omega

theorem magnitude_ofMagnitude (h : m < f.signWeight) :
    (ofMagnitude negative m : Binary f).magnitude = m := by
  rw [magnitude, toNat_ofMagnitude h]
  cases negative with
  | false => exact Nat.mod_eq_of_lt h
  | true =>
    rw [if_pos rfl, Nat.add_mod_left]
    exact Nat.mod_eq_of_lt h

theorem isNegative_ofMagnitude (h : m < f.signWeight) :
    (ofMagnitude negative m : Binary f).isNegative = negative := by
  rw [isNegative, toNat_ofMagnitude h]
  cases negative with
  | false => simpa using h
  | true => simp

end

theorem magnitude_ofQuotient (negative : Bool) (num den : Nat) :
    (ofQuotient negative num den : Binary f).magnitude = f.nearest num den :=
  magnitude_ofMagnitude ((f.nearest_le_infinity num den).trans_lt f.infinity_lt_signWeight)

theorem isNegative_ofQuotient (negative : Bool) (num den : Nat) :
    (ofQuotient negative num den : Binary f).isNegative = negative :=
  isNegative_ofMagnitude ((f.nearest_le_infinity num den).trans_lt f.infinity_lt_signWeight)

/-- Numbers are told apart by their places in the total order. -/
theorem rank_inj {x y : Binary f} (h : x.rank = y.rank) : x = y := by
  have hx : x.toNat < 2 * f.signWeight := f.two_pow_width ▸ x.bits.isLt
  have hy : y.toNat < 2 * f.signWeight := f.two_pow_width ▸ y.bits.isLt
  have hpos : 0 < f.signWeight := Nat.pos_of_ne_zero fun hz => by omega
  have hparts (z : Binary f) (hz : z.toNat < 2 * f.signWeight) :
      z.toNat = (if z.isNegative then f.signWeight else 0) + z.magnitude := by
    unfold isNegative magnitude
    by_cases hneg : f.signWeight ≤ z.toNat
    · rw [Nat.mod_eq_sub_mod hneg, Nat.mod_eq_of_lt (by omega)]
      simp only [hneg, decide_true, if_true]
      omega
    · rw [Nat.mod_eq_of_lt (by omega)]
      simp [hneg]
  have hnat : x.toNat = y.toNat := by
    rw [hparts x hx, hparts y hy]
    unfold rank at h
    split at h <;> split at h <;> simp_all only [if_true, if_false, Bool.false_eq_true] <;> omega
  obtain ⟨x⟩ := x
  obtain ⟨y⟩ := y
  exact congrArg Binary.mk (BitVec.eq_of_toNat_eq hnat)

theorem rank_ofInt (n : Int) :
    (ofInt n : Binary f).rank =
      if n < 0 then -(f.nearest n.natAbs 1 : Int) - 1 else f.nearest n.natAbs 1 := by
  rw [rank, ofInt, isNegative_ofQuotient, magnitude_ofQuotient]
  simp only [decide_eq_true_eq]

/-- Rounding keeps the order of integers. -/
theorem rank_ofInt_le {m n : Int} (h : m ≤ n) :
    (ofInt m : Binary f).rank ≤ (ofInt n : Binary f).rank := by
  have hmono {k l : Nat} (hkl : k ≤ l) : f.nearest k 1 ≤ f.nearest l 1 :=
    f.nearest_le Nat.one_pos Nat.one_pos (Nat.mul_le_mul_right 1 hkl)
  rw [rank_ofInt, rank_ofInt]
  split <;> split
  · have hle := @hmono n.natAbs m.natAbs (by omega)
    omega
  · omega
  · omega
  · have hle := @hmono m.natAbs n.natAbs (by omega)
    omega

end Binary

end QueryEngine
