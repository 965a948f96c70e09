import Mathlib.Algebra.Order.Field.Power
import Mathlib.Algebra.Order.Ring.Rat
import Mathlib.Tactic.FieldSimp
import Mathlib.Tactic.Linarith
import Mathlib.Tactic.NormNum
import Mathlib.Tactic.Positivity
import Mathlib.Tactic.Ring
import UiLang.Json.Double

/-!
# Decimals in the range of doubles

Whether a decimal is in the range of doubles is found out in natural numbers: its mantissa is
rounded, and its exponent may become too large.  Here the outcome is compared with exact rational
numbers.  A decimal is in range exactly below a limit, halfway from the largest finite double to the
power of two behind it.

## Main definitions

* `Ratio.value`: the rational number that a fraction stands for
* `Double.limit`: where the range of doubles ends

## Main results

* `Ratio.abs_round_sub_value_le`, `Ratio.even_round_of_value_eq`: rounding goes to the nearest
  whole number, and from halfway to the even one
* `Double.isSome_ofRatio?_iff`, `Double.isSome_ofDecimal?_iff`: which numbers are in range
-/

namespace UiLang

namespace Ratio

variable {a b : Ratio}

/-- The number that a fraction stands for. -/
def value (a : Ratio) : ℚ :=
  a.num / a.den

theorem value_scaled (n : Nat) {base : Nat} (hbase : base ≠ 0) (e : Int) :
    (scaled n base e).value = n * (base : ℚ) ^ e := by
  have hbase' : (base : ℚ) ≠ 0 := by exact_mod_cast hbase
  obtain ⟨k, rfl | rfl⟩ := e.eq_nat_or_neg
  · simp [value, scaled]
  · simp [value, scaled, div_eq_mul_inv]

theorem den_scaled_pos (n : Nat) {base : Nat} (hbase : 0 < base) (e : Int) :
    0 < (scaled n base e).den :=
  Nat.pow_pos hbase

theorem value_quotient (a b : Ratio) : (a.quotient b).value = a.value / b.value := by
  simp only [value, quotient, Nat.cast_mul]
  rw [div_div_div_eq]

theorem le_iff (ha : 0 < a.den) (hb : 0 < b.den) : a.le b = true ↔ a.value ≤ b.value := by
  have ha' : (0 : ℚ) < a.den := by exact_mod_cast ha
  have hb' : (0 : ℚ) < b.den := by exact_mod_cast hb
  rw [le, decide_eq_true_iff, value, value, div_le_div_iff₀ ha' hb']
  exact_mod_cast Iff.rfl

/-! ## Rounding -/

/-- A fraction is its whole part and what is left of a unit. -/
theorem value_eq (h : 0 < a.den) :
    a.value = (a.num / a.den : Nat) + (a.num % a.den : Nat) / (a.den : ℚ) := by
  have hden : (a.den : ℚ) ≠ 0 := by exact_mod_cast h.ne'
  have hparts : (a.den : ℚ) * (a.num / a.den : Nat) + (a.num % a.den : Nat) = a.num := by
    exact_mod_cast Nat.div_add_mod a.num a.den
  rw [value, ← hparts]
  field_simp

theorem abs_round_sub_value_le (h : 0 < a.den) : |(a.round : ℚ) - a.value| ≤ 1 / 2 := by
  have hden : (0 : ℚ) < a.den := by exact_mod_cast h
  have hpart : ((a.num % a.den : Nat) : ℚ) / a.den < 1 := by
    rw [div_lt_one hden]
    exact_mod_cast Nat.mod_lt a.num h
  have hpart' : 0 ≤ ((a.num % a.den : Nat) : ℚ) / a.den := by positivity
  rw [value_eq h, round, abs_le]
  split
  · -- what is left is less than half a unit
    rename_i hlow
    have hlow : ((a.num % a.den : Nat) : ℚ) / a.den < 1 / 2 := by
      rw [div_lt_div_iff₀ hden two_pos, one_mul, mul_comm]
      exact_mod_cast hlow
    constructor <;> linarith
  split
  · -- what is left is more than half a unit
    rename_i _ hhigh
    have hhigh : 1 / 2 < ((a.num % a.den : Nat) : ℚ) / a.den := by
      rw [div_lt_div_iff₀ two_pos hden, one_mul, mul_comm]
      exact_mod_cast hhigh
    push_cast
    constructor <;> linarith
  · rename_i hlow hhigh
    have htie : ((a.num % a.den : Nat) : ℚ) / a.den = 1 / 2 := by
      rw [div_eq_div_iff hden.ne' two_ne_zero, one_mul, mul_comm]
      exact_mod_cast (show 2 * (a.num % a.den) = a.den by omega)
    rcases Nat.mod_two_eq_zero_or_one (a.num / a.den) with hparity | hparity
    · rw [hparity, htie]
      push_cast
      constructor <;> linarith
    · rw [hparity, htie]
      push_cast
      constructor <;> linarith

/-- Halfway between two whole numbers the even one is taken. -/
theorem even_round_of_value_eq (h : 0 < a.den) {n : Nat} (hvalue : a.value = n + 1 / 2) :
    Even a.round := by
  have hden : (a.den : ℚ) ≠ 0 := by exact_mod_cast h.ne'
  have htwice : 2 * a.num = (2 * n + 1) * a.den := by
    rw [value, div_eq_iff hden] at hvalue
    have : (2 : ℚ) * a.num = (2 * n + 1) * a.den := by
      rw [hvalue]
      ring
    exact_mod_cast this
  -- so the whole part is `n` and exactly half a unit is left
  have hwhole : a.num / a.den = n := by
    apply Nat.div_eq_of_lt_le
    · linarith
    · linarith
  have hpart : 2 * (a.num % a.den) = a.den := by
    have hparts := Nat.div_add_mod a.num a.den
    rw [hwhole] at hparts
    linarith
  rw [round, hwhole, if_neg (by omega), if_neg (by omega), Nat.even_iff]
  omega

/-- An even number is reached from half a unit below it. -/
theorem le_round_iff (h : 0 < a.den) {n : Nat} (heven : Even n) :
    n ≤ a.round ↔ (n : ℚ) - 1 / 2 ≤ a.value := by
  have hnear := abs_le.mp (abs_round_sub_value_le h)
  constructor
  · intro hle
    have hle' : (n : ℚ) ≤ a.round := by exact_mod_cast hle
    linarith [hnear.2]
  · intro hle
    by_contra hlt
    obtain ⟨k, rfl⟩ := Nat.exists_eq_add_of_le (Nat.succ_le_of_lt (Nat.lt_of_not_le hlt))
    push_cast at hle
    -- the value can only be halfway, and then the odd neighbour is not taken
    have hk : k = 0 := by
      have : (k : ℚ) < 1 := by linarith [hnear.1]
      exact Nat.lt_one_iff.mp (by exact_mod_cast this)
    subst hk
    have htie : a.value = a.round + 1 / 2 := by
      push_cast at hle
      linarith [hnear.1]
    have hround := even_round_of_value_eq h htie
    rw [Nat.even_iff] at heven hround
    omega

theorem round_le (h : 0 < a.den) {n : Nat} (hvalue : a.value < n) : a.round ≤ n := by
  have hnear := (abs_le.mp (abs_round_sub_value_le h)).2
  have : (a.round : ℚ) < n + 1 := by linarith
  exact_mod_cast Nat.lt_succ_iff.mp (by exact_mod_cast this)

/-! ## Binary logarithms -/

/-- The exponent that is found for a fraction, from a guess by the lengths of its two numbers. -/
def binaryLog (a : Ratio) : Int :=
  a.logFrom 2 ((Nat.log2 a.num : Int) - (Nat.log2 a.den : Int))

/-- It is the exponent of the greatest power of two below the fraction. -/
theorem binaryLog_spec (hnum : 0 < a.num) (hden : 0 < a.den) :
    (2 : ℚ) ^ a.binaryLog ≤ a.value ∧ a.value < 2 ^ (a.binaryLog + 1) := by
  unfold binaryLog
  have hden' : (0 : ℚ) < a.den := by exact_mod_cast hden
  have hnumLow : (2 : ℚ) ^ (Nat.log2 a.num : Int) ≤ a.num := by
    exact_mod_cast Nat.log2_self_le hnum.ne'
  have hnumHigh : (a.num : ℚ) < 2 ^ ((Nat.log2 a.num : Int) + 1) := by
    exact_mod_cast Nat.lt_log2_self
  have hdenLow : (2 : ℚ) ^ (Nat.log2 a.den : Int) ≤ a.den := by
    exact_mod_cast Nat.log2_self_le hden.ne'
  have hdenHigh : (a.den : ℚ) < 2 ^ ((Nat.log2 a.den : Int) + 1) := by
    exact_mod_cast Nat.lt_log2_self
  generalize (Nat.log2 a.num : Int) = p at *
  generalize (Nat.log2 a.den : Int) = q at *
  -- the guess may be one too large, never too small
  have hlow : (2 : ℚ) ^ (p - q - 1) ≤ a.value := by
    rw [value, le_div_iff₀ hden']
    calc (2 : ℚ) ^ (p - q - 1) * a.den ≤ 2 ^ (p - q - 1) * 2 ^ (q + 1) := by gcongr
      _ = 2 ^ p := by
        rw [← zpow_add₀ two_ne_zero]
        congr 1
        ring
      _ ≤ a.num := hnumLow
  have hhigh : a.value < 2 ^ (p - q + 1) := by
    rw [value, div_lt_iff₀ hden']
    calc (a.num : ℚ) < 2 ^ (p + 1) := hnumHigh
      _ = 2 ^ (p - q + 1) * 2 ^ q := by
        rw [← zpow_add₀ two_ne_zero]
        congr 1
        ring
      _ ≤ 2 ^ (p - q + 1) * a.den := by gcongr
  have hle := @le_iff (scaled 1 2 (p - q)) a (den_scaled_pos 1 two_pos _) hden
  rw [value_scaled 1 two_ne_zero, Nat.cast_one, one_mul, Nat.cast_ofNat] at hle
  unfold logFrom
  split
  · rename_i hguess
    exact ⟨hle.mp hguess, hhigh⟩
  · rename_i hguess
    refine ⟨hlow, ?_⟩
    rw [sub_add_cancel]
    exact not_le.mp fun habs => hguess (hle.mpr habs)

end Ratio

namespace Double

/-! ## The range of doubles -/

/-- Halfway from the largest finite double to the power of two behind it. -/
def limit : ℚ :=
  (2 ^ 53 - 1 / 2) * 2 ^ maxExponent

section OfRatio

variable {a : Ratio} (negative : Bool)

/-- The exponent that a fraction is read with, before its mantissa is rounded. -/
def exponentOf (a : Ratio) : Int :=
  max (a.binaryLog - 52) minExponent

/-- The mantissa that a fraction is read with. -/
def mantissaOf (a : Ratio) : Nat :=
  (a.quotient (.scaled 1 2 (exponentOf a))).round

/-- A mantissa that is rounded up to a power of two takes the next exponent. -/
theorem ofRatio?_eq (a : Ratio) :
    ofRatio? negative a =
      if mantissaOf a = mantissaBound then
        if exponentOf a + 1 ≤ maxExponent then
          some ⟨negative, mantissaBound / 2, exponentOf a + 1⟩ else none
      else if exponentOf a ≤ maxExponent then some ⟨negative, mantissaOf a, exponentOf a⟩
      else none := by
  by_cases h : mantissaOf a = mantissaBound
  · rw [if_pos h]
    unfold mantissaOf exponentOf Ratio.binaryLog at h
    unfold ofRatio? exponentOf Ratio.binaryLog
    dsimp only
    rw [if_pos h, h]
  · rw [if_neg h]
    unfold mantissaOf exponentOf Ratio.binaryLog at h ⊢
    unfold ofRatio?
    dsimp only
    rw [if_neg h]

variable (hnum : 0 < a.num) (hden : 0 < a.den)

theorem two_zpow_pos (e : Int) : (0 : ℚ) < 2 ^ e :=
  zpow_pos two_pos e

theorem value_quotient_scaled (a : Ratio) (e : Int) :
    (a.quotient (.scaled 1 2 e)).value = a.value / 2 ^ e := by
  rw [Ratio.value_quotient, Ratio.value_scaled 1 two_ne_zero, Nat.cast_one, one_mul,
    Nat.cast_ofNat]

include hden in
theorem den_quotient_pos (e : Int) : 0 < (a.quotient (.scaled 1 2 e)).den := by
  have hscaled : 0 < (Ratio.scaled 1 2 e).num := by
    simp [Ratio.scaled]
  exact Nat.mul_pos hden hscaled

include hnum hden in
theorem value_lt : a.value < 2 ^ (exponentOf a + 53) := by
  refine (Ratio.binaryLog_spec hnum hden).2.trans_le (zpow_le_zpow_right₀ one_le_two ?_)
  have := le_max_left (a.binaryLog - 52) minExponent
  unfold exponentOf
  omega

theorem cast_mantissaBound : (mantissaBound : ℚ) = 2 ^ 53 := by
  norm_num [mantissaBound, Nat.shiftLeft_eq]

include hnum hden in
theorem mantissaOf_le : mantissaOf a ≤ mantissaBound := by
  apply Ratio.round_le (den_quotient_pos hden _)
  rw [value_quotient_scaled, div_lt_iff₀ (two_zpow_pos _)]
  calc a.value < 2 ^ (exponentOf a + 53) := value_lt hnum hden
    _ = (mantissaBound : ℚ) * 2 ^ exponentOf a := by
      rw [zpow_add₀ two_ne_zero, mul_comm, cast_mantissaBound]
      norm_num

include hden in
theorem mantissaBound_le_iff :
    mantissaBound ≤ mantissaOf a ↔ (2 ^ 53 - 1 / 2) * 2 ^ exponentOf a ≤ a.value := by
  have heven : Even mantissaBound := by decide
  rw [mantissaOf, Ratio.le_round_iff (den_quotient_pos hden _) heven, value_quotient_scaled,
    le_div_iff₀ (two_zpow_pos _), cast_mantissaBound]

theorem zpow_lt_limit : (2 : ℚ) ^ (1023 : Int) < limit := by
  rw [show (1023 : Int) = 52 + maxExponent from rfl, zpow_add₀ two_ne_zero]
  exact mul_lt_mul_of_pos_right (by norm_num) (two_zpow_pos _)

/-- All integers of 64 bits are in range. -/
theorem pow_lt_limit : (2 : ℚ) ^ 64 < limit :=
  lt_of_le_of_lt (zpow_le_zpow_right₀ one_le_two (show (64 : Int) ≤ 1023 by decide)) zpow_lt_limit

theorem limit_lt_zpow : limit < (2 : ℚ) ^ (1024 : Int) := by
  rw [show (1024 : Int) = 53 + maxExponent from rfl, zpow_add₀ two_ne_zero]
  exact mul_lt_mul_of_pos_right (by norm_num) (two_zpow_pos _)

/-! The mantissa is rounded up to a power of two or not, and the exponent is in range or not.  In
each of the four cases this decides on which side of the limit the fraction is. -/

include hnum hden in
theorem value_lt_limit_of_exponentOf_lt (h : exponentOf a + 1 ≤ maxExponent) :
    a.value < limit := by
  refine lt_trans (lt_of_lt_of_le (value_lt hnum hden) ?_) zpow_lt_limit
  exact zpow_le_zpow_right₀ one_le_two (by unfold maxExponent at h; omega)

include hden in
theorem limit_le_of_mantissaOf_eq (hmantissa : mantissaOf a = mantissaBound)
    (h : maxExponent ≤ exponentOf a) : limit ≤ a.value := by
  refine le_trans ?_ ((mantissaBound_le_iff hden).mp hmantissa.ge)
  exact mul_le_mul_of_nonneg_left (zpow_le_zpow_right₀ one_le_two h) (by norm_num)

include hnum hden in
theorem value_lt_limit_of_mantissaOf_ne (hmantissa : mantissaOf a ≠ mantissaBound)
    (h : exponentOf a ≤ maxExponent) : a.value < limit := by
  -- the mantissa stays below the bound, so the fraction is below the half unit in front of it
  have hless : ¬ mantissaBound ≤ mantissaOf a := fun hge =>
    hmantissa (le_antisymm (mantissaOf_le hnum hden) hge)
  rw [mantissaBound_le_iff hden, not_le] at hless
  refine lt_of_lt_of_le hless ?_
  exact mul_le_mul_of_nonneg_left (zpow_le_zpow_right₀ one_le_two h) (by norm_num)

include hnum hden in
theorem limit_le_of_exponentOf_gt (h : maxExponent < exponentOf a) : limit ≤ a.value := by
  refine limit_lt_zpow.le.trans (le_trans ?_ (Ratio.binaryLog_spec hnum hden).1)
  -- so large an exponent is not the smallest one
  have hlog : exponentOf a = a.binaryLog - 52 := by
    refine max_eq_left (le_of_lt (lt_of_not_ge fun hle => ?_))
    rw [exponentOf, max_eq_right hle] at h
    exact absurd h (by decide)
  unfold maxExponent at h
  exact zpow_le_zpow_right₀ one_le_two (by omega)

include hnum hden in
/-- **A positive fraction is in range exactly below the limit.** -/
theorem isSome_ofRatio?_iff : (ofRatio? negative a).isSome = true ↔ a.value < limit := by
  rw [ofRatio?_eq]
  split
  · rename_i hmantissa
    split
    · rename_i h
      exact iff_of_true rfl (value_lt_limit_of_exponentOf_lt hnum hden h)
    · rename_i h
      have hlimit := limit_le_of_mantissaOf_eq hden hmantissa (by omega)
      exact iff_of_false Bool.false_ne_true (not_lt.mpr hlimit)
  · rename_i hmantissa
    split
    · rename_i h
      exact iff_of_true rfl (value_lt_limit_of_mantissaOf_ne hnum hden hmantissa h)
    · rename_i h
      have hlimit := limit_le_of_exponentOf_gt hnum hden (by omega)
      exact iff_of_false Bool.false_ne_true (not_lt.mpr hlimit)

end OfRatio

/-! ## Decimals -/

section OfDecimal

variable {digits : Nat}

theorem lt_zpow_decimalLength (digits : Nat) :
    (digits : ℚ) < 10 ^ (decimalLength digits : Int) := by
  rw [zpow_natCast]
  exact_mod_cast (Nat.length_toDigits_le_iff (by decide) Nat.length_toDigits_pos).mp le_rfl

theorem zpow_decimalLength_le (h : digits ≠ 0) :
    (10 : ℚ) ^ ((decimalLength digits : Int) - 1) ≤ digits := by
  have hpos : 0 < decimalLength digits := Nat.length_toDigits_pos
  obtain ⟨k, hk⟩ := Nat.exists_eq_succ_of_ne_zero hpos.ne'
  rw [hk, Nat.cast_succ, add_sub_cancel_right, zpow_natCast]
  rcases Nat.eq_zero_or_pos k with rfl | hkpos
  · rw [pow_zero]
    exact_mod_cast Nat.one_le_iff_ne_zero.mpr h
  · have hlength : ¬ decimalLength digits ≤ k := by omega
    rw [decimalLength, Nat.length_toDigits_le_iff (by decide) hkpos, not_lt] at hlength
    exact_mod_cast hlength

/-- So short a decimal is in range. -/
theorem lt_limit_of_magnitude_lt {exponent : Int} (h : decimalLength digits + exponent < -330) :
    (digits : ℚ) * 10 ^ exponent < limit := by
  calc (digits : ℚ) * 10 ^ exponent
      < 10 ^ (decimalLength digits : Int) * 10 ^ exponent :=
        mul_lt_mul_of_pos_right (lt_zpow_decimalLength digits) (by positivity)
    _ = 10 ^ (decimalLength digits + exponent) := (zpow_add₀ (by norm_num) _ _).symm
    _ ≤ 10 ^ (0 : Int) := zpow_le_zpow_right₀ (by norm_num) (by omega)
    _ ≤ 2 ^ 64 := by norm_num
    _ < limit := pow_lt_limit

/-- So long a decimal is past the limit. -/
theorem limit_le_of_lt_magnitude {exponent : Int} (hdigits : digits ≠ 0)
    (h : 310 < decimalLength digits + exponent) : limit ≤ (digits : ℚ) * 10 ^ exponent := by
  have hpowers : (2 : ℚ) ^ (1024 : Int) ≤ 10 ^ (310 : Int) := by
    exact_mod_cast (show 2 ^ 1024 ≤ 10 ^ 310 by decide +kernel)
  calc limit ≤ 2 ^ (1024 : Int) := limit_lt_zpow.le
    _ ≤ 10 ^ (310 : Int) := hpowers
    _ ≤ 10 ^ ((decimalLength digits : Int) - 1 + exponent) :=
      zpow_le_zpow_right₀ (by norm_num) (by omega)
    _ = 10 ^ ((decimalLength digits : Int) - 1) * 10 ^ exponent := zpow_add₀ (by norm_num) _ _
    _ ≤ digits * 10 ^ exponent :=
      mul_le_mul_of_nonneg_right (zpow_decimalLength_le hdigits) (by positivity)

/-- **A decimal is in range exactly below the limit.** -/
theorem isSome_ofDecimal?_iff (negative : Bool) (digits : Nat) (exponent : Int) :
    (ofDecimal? negative digits exponent).isSome = true ↔ (digits : ℚ) * 10 ^ exponent < limit := by
  unfold ofDecimal?
  dsimp only
  split
  · rename_i hsmall
    refine iff_of_true rfl ?_
    rcases hsmall with rfl | hsmall
    · rw [Nat.cast_zero, zero_mul]
      exact lt_trans (by positivity) pow_lt_limit
    · exact lt_limit_of_magnitude_lt hsmall
  rename_i hnot
  rw [not_or] at hnot
  split
  · rename_i hlarge
    exact iff_of_false Bool.false_ne_true (not_lt.mpr (limit_le_of_lt_magnitude hnot.1 hlarge))
  · -- a decimal of ordinary length is rounded as the fraction that it is
    have hvalue := Ratio.value_scaled digits (show 10 ≠ 0 by decide) exponent
    rw [Nat.cast_ofNat] at hvalue
    rw [← hvalue]
    apply isSome_ofRatio?_iff negative
    · exact Nat.mul_pos (Nat.pos_of_ne_zero hnot.1) (Nat.pow_pos (by decide))
    · exact Ratio.den_scaled_pos digits (by decide) exponent

end OfDecimal

end Double

end UiLang
