import Mathlib.Tactic.Positivity
import TableScan.Proofs.Binary.Closeness

/-!
# Decimals that are read

Reading a decimal takes several roundings: of its digits, of the power of ten, and of the product or
the quotients of both. So a decimal is not always read as the magnitude that it is near to.

Main statements: it is read as one that is no more than seven units in the last place apart
(`ofScientific_apart`), and as the magnitude itself if digits and power of ten need no rounding
(`ofScientific_exact`).
-/

namespace TableScan.Binary

open Format (round_apart close_round)

/-! ## Single steps -/

/-- The greatest power of ten that digits are multiplied or divided by. -/
def greatestPower : Nat := 10 ^ maxPower

/-- The magnitude of one. -/
def unity : Nat := 1023 * 2 ^ 52

/-- The binade whose unit makes up for the scale starts with one. -/
theorem Format.value_of_scale {f : Format} {e : Nat} (he : 1 ≤ e)
    (h : f.fractionBits + e = f.scale) :
    (f.value (e * 2 ^ f.fractionBits)).1 = 2 ^ f.scale := by
  rw [f.value_binadeStart he, ← Nat.pow_add, h]

/-- The magnitude of one has the value one. -/
theorem value_unity : (double.value unity).1 = 2 ^ double.scale :=
  Format.value_of_scale (by decide) (by decide)

theorem rat_unity : double.rat unity = 1 := by
  rw [Format.rat_eq, value_unity]
  exact div_self double.unit_pos.ne'

section Integer

variable {n : Nat} (hpos : 0 < n) (hle : n ≤ greatestPower)

include hpos hle

/-- An integer in range is rounded to a finite magnitude. -/
theorem round_one_bounds :
    unity ≤ double.round n 1 ∧ double.round n 1 < double.infinity := by
  have hunity : double.round 1 1 = unity :=
    double.round_of_value Nat.one_pos (by decide) (by rw [value_unity, Nat.mul_comm])
  have hfinite : double.round greatestPower 1 < double.infinity := by decide +kernel
  exact ⟨hunity ▸ double.round_mono Nat.one_pos hpos,
    Nat.lt_of_le_of_lt (double.round_mono Nat.one_pos hle) hfinite⟩

/-- An integer in range is off by one rounding. -/
theorem close_round_one : Close 1 (double.rat (double.round n 1)) n := by
  obtain ⟨hunity, hfinite⟩ := round_one_bounds hpos hle
  have hsize : 2 ^ 52 ≤ 1 * (double.round n 1 - 1) := by
    have hnormal : 2 ^ 52 + 1 ≤ unity := by decide
    omega
  have hclose := close_round (Nat.le_refl 1) Nat.one_pos hfinite hsize
  rwa [Nat.cast_one, div_one] at hclose

/-- A positive integer is not rounded below one. -/
theorem one_le_rat_round : 1 ≤ double.rat (double.round n 1) := by
  rw [← rat_unity]
  exact double.rat_mono (round_one_bounds hpos hle).1

end Integer

theorem mul_eq (a b : Nat) : double.mul a b
    = double.round ((double.value a).1 * (double.value b).1)
        ((double.value a).2 * (double.value b).2) := rfl

theorem div_eq (a b : Nat) : double.div a b
    = double.round ((double.value a).1 * (double.value b).2)
        ((double.value a).2 * (double.value b).1) := rfl

/-- The product of two magnitudes is the rounded product of their values. -/
theorem mul_quotient (a b : Nat) :
    ((((double.value a).1 * (double.value b).1 : Nat) : ℚ)
      / ((double.value a).2 * (double.value b).2 : Nat)) = double.rat a * double.rat b := by
  rw [Nat.cast_mul, Nat.cast_mul, mul_div_mul_comm]
  rfl

/-- Their quotient is the rounded quotient of the values. -/
theorem div_quotient (a b : Nat) :
    ((((double.value a).1 * (double.value b).2 : Nat) : ℚ)
      / ((double.value a).2 * (double.value b).1 : Nat)) = double.rat a / double.rat b := by
  rw [Nat.cast_mul, Nat.cast_mul, mul_div_mul_comm, div_eq_mul_inv (double.rat a), Format.rat,
    Format.rat, inv_div]

section Power

variable {k : Nat} (hk : k ≤ maxPower)

include hk

theorem pow_le_greatestPower : 10 ^ k ≤ greatestPower := Nat.pow_le_pow_right (by decide) hk

/-- A power of ten that is multiplied by is off by one rounding. -/
theorem close_powerOfTen : Close 1 (double.rat (powerOfTen k)) (10 ^ k) := by
  have hpower := close_round_one (Nat.pow_pos (by decide)) (pow_le_greatestPower hk)
  unfold powerOfTen
  rwa [Nat.cast_pow] at hpower

theorem one_le_rat_powerOfTen : 1 ≤ double.rat (powerOfTen k) := by
  unfold powerOfTen
  exact one_le_rat_round (Nat.pow_pos (by decide)) (pow_le_greatestPower hk)

theorem div_den_pos (a : Nat) : 0 < (double.value a).2 * (double.value (powerOfTen k)).1 := by
  have hunity := (round_one_bounds (Nat.pow_pos (by decide)) (pow_le_greatestPower hk)).1
  have hpower : 0 < powerOfTen k := Nat.lt_of_lt_of_le (by decide) hunity
  exact Nat.mul_pos (Nat.two_pow_pos _)
    (Nat.lt_of_le_of_lt (Nat.zero_le _) (double.value_strictMono hpower))

/-- Dividing by a power of ten stays finite. -/
theorem div_lt_infinity {m : Nat} (hm : m < double.infinity) :
    double.div m (powerOfTen k) < double.infinity := by
  rw [div_eq]
  -- the power is one or more, so the quotient is not above the dividend
  refine Nat.lt_of_le_of_lt (Format.round_le (by decide) (div_den_pos hk m) ?_) hm
  rw [div_quotient]
  exact div_le_self (double.rat_nonneg m) (one_le_rat_powerOfTen hk)

/-- A quotient that is not too small is close to the exact one. -/
theorem close_div {a c : Nat} (ha : a < double.infinity) (hc : 1 ≤ c)
    (hsize : 2 ^ 52 ≤ c * (double.div a (powerOfTen k) - 1)) :
    Close c (double.rat (double.div a (powerOfTen k)))
      (double.rat a / double.rat (powerOfTen k)) := by
  have hfinite := div_lt_infinity hk ha
  rw [div_eq] at hfinite hsize ⊢
  rw [← div_quotient]
  exact close_round hc (div_den_pos hk a) hfinite hsize

end Power

section Digits

variable {a : Nat} (hpos : 0 < a) (hfits : a ≤ greatestPower)

include hpos hfits

/-- The product of the rounded digits and the rounded power. -/
theorem close_product {k : Nat} (hk : k ≤ maxPower) :
    Close 2 (double.rat (double.round a 1) * double.rat (powerOfTen k)) (a * 10 ^ k) := by
  have hpower : (0 : ℚ) ≤ 10 ^ k := by positivity
  -- one rounding of the digits, and one of the power
  have hclose := (close_round_one hpos hfits).mul (close_powerOfTen hk) (double.rat_nonneg _)
    (Nat.cast_nonneg a) (double.rat_nonneg _) hpower
  exact hclose

/-- The quotient of the rounded digits and the rounded power. -/
theorem close_quotient {k : Nat} (hk : k ≤ maxPower) :
    Close 2 (double.rat (double.round a 1) / double.rat (powerOfTen k)) (a / 10 ^ k) := by
  have hpower : (0 : ℚ) < 10 ^ k := by positivity
  have hrounded := one_pos.trans_le (one_le_rat_powerOfTen hk)
  have hclose := (close_round_one hpos hfits).div (close_powerOfTen hk) (double.rat_nonneg _)
    (Nat.cast_nonneg a) hrounded hpower
  exact hclose

/-- The first of two quotients may have less than a full significand, which counts for three
roundings. -/
theorem close_firstQuotient :
    Close 5 (double.rat (double.div (double.round a 1) (powerOfTen maxPower))) (a / 10 ^ maxPower)
      ∧ double.div (double.round a 1) (powerOfTen maxPower) ≠ 0 := by
  have hpower := one_le_rat_powerOfTen (Nat.le_refl maxPower)
  -- one third of the first normal magnitude, which is less than one divided by the power
  have hthird : 1501199875790167 ≤ double.div (double.round a 1) (powerOfTen maxPower) := by
    rw [div_eq]
    refine Format.le_round (by decide) (div_den_pos (Nat.le_refl maxPower) _) (by decide) ?_
    rw [div_quotient, le_div_iff₀ (one_pos.trans_le hpower)]
    refine le_trans ?_ (one_le_rat_round hpos hfits)
    have hproduct : (double.value 1501199875790167).1 * (double.value (powerOfTen maxPower)).1
        ≤ 2 ^ double.scale * 2 ^ double.scale := by
      decide +kernel
    rw [Format.rat_eq, Format.rat_eq, div_mul_div_comm,
      div_le_one (mul_pos double.unit_pos double.unit_pos)]
    exact_mod_cast hproduct
  have hclose := close_div (c := 3) (Nat.le_refl maxPower) (round_one_bounds hpos hfits).2
    (by decide) (by omega)
  have hquotient := hclose.trans (close_quotient hpos hfits (Nat.le_refl maxPower))
  exact ⟨hquotient, by omega⟩

/-- How far a quotient is off when it is taken in no more than two steps. -/
theorem scaleDown_apart {n m : Nat} (hn : n ≤ maxPower + maxPower) (hm : m < double.infinity)
    (hnear : double.IsNear m a (10 ^ n)) :
    scaleDown (double.round a 1) n < double.infinity
      ∧ scaleDown (double.round a 1) n ≤ m + 7 ∧ m ≤ scaleDown (double.round a 1) n + 7 := by
  have hfinite := (round_one_bounds hpos hfits).2
  have hpower : 0 < 10 ^ n := Nat.pow_pos (by decide)
  -- the last of the steps, whose rounding is not counted
  have hlast : ∀ {s k : Nat}, k ≤ maxPower → s < double.infinity →
      Close 6 (double.rat s / double.rat (powerOfTen k)) (a / (10 ^ n : Nat)) →
      double.div s (powerOfTen k) < double.infinity ∧ double.div s (powerOfTen k) ≤ m + 7
        ∧ m ≤ double.div s (powerOfTen k) + 7 := by
    intro s k hk hs hclose
    refine ⟨div_lt_infinity hk hs, ?_⟩
    rw [← div_quotient] at hclose
    rw [div_eq]
    exact round_apart errorFactor_pow_lt hpower (div_den_pos hk s) hnear hm hclose
  have hpowers : ∀ k, (0 : ℚ) < 10 ^ k := fun k => by positivity
  rw [Nat.cast_pow] at hlast
  rw [scaleDown]
  split
  · next hk =>
    have hclose := close_quotient hpos hfits hk
    exact hlast hk hfinite (hclose.mono (by decide) (div_nonneg (double.rat_nonneg _)
      (double.rat_nonneg _)) (div_nonneg (Nat.cast_nonneg a) (hpowers n).le))
  · next hk =>
    obtain ⟨hfirst, hne⟩ := close_firstQuotient hpos hfits
    have hfinite' := div_lt_infinity (Nat.le_refl maxPower) hfinite
    have hstart : double.round a 1 ≠ 0 := by
      have hunity := (round_one_bounds hpos hfits).1
      have hone : 0 < unity := by decide
      omega
    have hrest : n - maxPower ≤ maxPower := by omega
    rw [if_neg hstart, scaleDown, if_pos hrest]
    refine hlast hrest hfinite' ?_
    have hclose := hfirst.div (close_powerOfTen hrest) (double.rat_nonneg _)
      (div_nonneg (Nat.cast_nonneg a) (hpowers maxPower).le)
      (one_pos.trans_le (one_le_rat_powerOfTen hrest)) (hpowers _)
    rw [div_div, ← pow_add, Nat.add_sub_cancel' (by omega)] at hclose
    exact hclose

end Digits

section Near

variable {a m : Nat} (hpos : 0 < m)

include hpos

/-- The least value other than zero is two units of the scale. -/
theorem two_le_value : 2 ≤ (double.value m).1 := by
  have hone : (double.value 1).1 = 2 := by decide
  rw [← hone]
  exact double.value_mono hpos

/-- A decimal near to a magnitude other than zero is not zero. -/
theorem digits_pos_of_isNear {den : Nat} (hden : 0 < den) (h : double.IsNear m a den) : 0 < a := by
  have hvalue := two_le_value hpos
  -- the middle before the magnitude is above zero
  have hbelow := Nat.le_trans (Nat.mul_le_mul_right den
    (Nat.le_trans hvalue (Nat.le_add_left _ (double.value (m - 1)).1))) h.below
  by_contra hzero
  obtain rfl : a = 0 := by omega
  rw [Nat.mul_zero, Nat.zero_mul] at hbelow
  omega

/-- No decimal near to a magnitude other than zero takes more than two quotients. -/
theorem exponent_le_of_isNear {n : Nat} (hword : a < 2 ^ 64) (h : double.IsNear m a (10 ^ n)) :
    n ≤ maxPower + maxPower := by
  have hbelow := Nat.le_trans (Nat.mul_le_mul_right (10 ^ n)
    (Nat.le_trans (two_le_value hpos) (Nat.le_add_left _ (double.value (m - 1)).1))) h.below
  -- a word of digits over more tens than these is below every magnitude
  have hroom : 2 ^ 64 * 2 ^ double.scale ≤ 10 ^ (maxPower + maxPower) := by
    rw [← Nat.pow_add]
    calc 2 ^ (64 + double.scale) ≤ 2 ^ (3 * (maxPower + maxPower)) :=
          Nat.pow_le_pow_right (by decide) (by decide)
      _ = (2 ^ 3) ^ (maxPower + maxPower) := Nat.pow_mul ..
      _ ≤ 10 ^ (maxPower + maxPower) := Nat.pow_le_pow_left (by decide) _
  have hscaled := Nat.mul_le_mul_right (2 ^ double.scale) (Nat.le_of_lt hword)
  rw [Nat.mul_assoc] at hbelow
  have hle : 10 ^ n ≤ 10 ^ (maxPower + maxPower) :=
    Nat.le_trans (Nat.le_of_mul_le_mul_left hbelow (by decide)) (Nat.le_trans hscaled hroom)
  exact (Nat.pow_le_pow_iff_right (by decide)).1 hle

end Near

/-- The decimals that are near to a magnitude other than zero are read as magnitudes that are no
more than seven units in the last place apart from it. -/
theorem ofScientific_apart {a m r : Nat} {e : Int} (hword : a < 2 ^ 64) (hpos : 0 < m)
    (hm : m < double.infinity)
    (hnear : double.IsNear m (Decimal.mk a e).value.1 (Decimal.mk a e).value.2)
    (h : ofScientific a e = some r) : r < double.infinity ∧ r ≤ m + 7 ∧ m ≤ r + 7 := by
  have hfits : a ≤ greatestPower := Nat.le_trans (Nat.le_of_lt hword)
    (Nat.le_trans (show 2 ^ 64 ≤ 10 ^ 20 by decide) (pow_le_greatestPower (by decide)))
  cases e with
  | ofNat k =>
    have hnear : double.IsNear m (a * 10 ^ k) 1 := hnear
    have ha : 0 < a := Nat.pos_of_mul_pos_right (digits_pos_of_isNear hpos Nat.one_pos hnear)
    unfold ofScientific at h
    simp only at h
    split at h
    · next hk =>
      split at h
      · next hfinite =>
        obtain rfl := Option.some.inj h
        refine ⟨hfinite, ?_⟩
        have hexact : (0 : ℚ) ≤ a * 10 ^ k := by positivity
        have hproduct := mul_nonneg (double.rat_nonneg (double.round a 1))
          (double.rat_nonneg (powerOfTen k))
        have hclose := (close_product ha hfits hk).mono (show 2 ≤ 6 by decide) hproduct hexact
        -- the decimal as a quotient of integers, as it was near to the magnitude
        have hdecimal : (a * 10 ^ k : ℚ) = (a * 10 ^ k : Nat) / (1 : Nat) := by
          push_cast
          exact (div_one _).symm
        have hden : 0 < (double.value (double.round a 1)).2 * (double.value (powerOfTen k)).2 :=
          Nat.mul_pos (Nat.two_pow_pos _) (Nat.two_pow_pos _)
        rw [hdecimal, ← mul_quotient] at hclose
        rw [mul_eq]
        exact round_apart errorFactor_pow_lt Nat.one_pos hden hnear hm hclose
      · cases h
    · -- above the greatest power nothing but zero is read
      split at h
      · next hzero =>
        have hunity := (round_one_bounds ha hfits).1
        have hone : 0 < unity := by decide
        omega
      · cases h
  | negSucc k =>
    have hnear : double.IsNear m a (10 ^ (k + 1)) := hnear
    have ha : 0 < a := digits_pos_of_isNear hpos (Nat.pow_pos (by decide)) hnear
    obtain rfl := Option.some.inj h
    exact scaleDown_apart ha hfits (exponent_le_of_isNear hpos hword hnear) hm hnear

/-! ## Decimals that need no rounding -/

/-- An integer that has no more bits than a significand, zeros at the end apart, is not rounded. -/
theorem value_round_one {q j : Nat} (hq : q < 2 ^ 53) (hj : j ≤ 100) :
    (double.value (double.round (q * 2 ^ j) 1)).1 = q * 2 ^ j * 2 ^ double.scale := by
  have hsplit : q * 2 ^ j * 2 ^ double.scale = q * 2 ^ (j + double.scale) := by
    rw [Nat.pow_add, Nat.mul_assoc]
  rw [hsplit]
  refine (double.round_of_exact Nat.one_pos ?_ hq ?_ ?_).2
  · exact Nat.le_trans (by decide) (Nat.le_add_left double.scale j)
  · rw [hsplit, Nat.mul_one]
  -- the range has room for a hundred more bits
  · have hroom : 2 ^ 53 * 2 ^ (100 + double.scale) ≤ (double.value double.infinity).1 := by
      rw [double.value_infinity (by decide), ← Nat.pow_add, ← Nat.pow_add]
      exact Nat.pow_le_pow_right (by decide) (by decide)
    refine Nat.lt_of_lt_of_le (Nat.mul_lt_mul_of_lt_of_le hq (Nat.pow_le_pow_right (by decide)
      (Nat.add_le_add_right hj _)) (Nat.two_pow_pos _)) hroom

/-- Digits that fit a significand are not rounded. -/
theorem value_round_digits {a : Nat} (h : a ≤ 2 ^ 53) :
    (double.value (double.round a 1)).1 = a * 2 ^ double.scale := by
  rcases Nat.eq_or_lt_of_le h with rfl | hlt
  · have hexact := value_round_one (q := 1) (j := 53) (by decide) (by decide)
    rwa [Nat.one_mul] at hexact
  · have hexact := value_round_one (j := 0) hlt (Nat.zero_le _)
    rwa [Nat.pow_zero, Nat.mul_one] at hexact

/-- Up to the twenty-second, powers of ten are not rounded. -/
theorem value_powerOfTen {k : Nat} (h : k ≤ 22) :
    (double.value (powerOfTen k)).1 = 10 ^ k * 2 ^ double.scale := by
  -- the fives fit the significand, the twos go to the exponent
  have hodd : 5 ^ k < 2 ^ 53 :=
    Nat.lt_of_le_of_lt (Nat.pow_le_pow_right (by decide) h) (by decide)
  have hsplit : 10 ^ k = 5 ^ k * 2 ^ k := Nat.mul_pow 5 2 k
  unfold powerOfTen
  rw [hsplit]
  exact value_round_one hodd (by omega)

/-- A decimal with no more digits than fit a significand, and a power of ten that does, is read as
the magnitude that it is near to. -/
theorem ofScientific_exact {a m : Nat} {e : Int} (ha : a ≤ 2 ^ 53) (he : e.natAbs ≤ 22)
    (hm : m < double.infinity)
    (hnear : double.IsNear m (Decimal.mk a e).value.1 (Decimal.mk a e).value.2) :
    ofScientific a e = some m := by
  have hdigits := value_round_digits ha
  have hunit : 0 < 2 ^ double.scale * 2 ^ double.scale :=
    Nat.mul_pos (Nat.two_pow_pos _) (Nat.two_pow_pos _)
  cases e with
  | ofNat k =>
    have hnear : double.IsNear m (a * 10 ^ k) 1 := hnear
    have hk : k ≤ 22 := he
    have hproduct : double.mul (double.round a 1) (powerOfTen k) = m := by
      rw [mul_eq, hdigits, value_powerOfTen hk]
      refine (Format.round_eq_iff (by decide) hunit hm).2 ?_
      -- both factors are exact, so the rounded quotient is the decimal, written with greater terms
      have hexpanded := (Format.isNear_expand_iff hunit).2 hnear
      rw [Nat.one_mul, Nat.mul_mul_mul_comm] at hexpanded
      exact hexpanded
    unfold ofScientific
    simp only
    rw [if_pos (Nat.le_trans hk (by decide)), hproduct, if_pos hm]
  | negSucc k =>
    have hnear : double.IsNear m a (10 ^ (k + 1)) := hnear
    have hk : k + 1 ≤ 22 := he
    have hquotient : double.div (double.round a 1) (powerOfTen (k + 1)) = m := by
      rw [div_eq, hdigits, value_powerOfTen hk]
      have hexpanded := (Format.isNear_expand_iff hunit).2 hnear
      have hden := Nat.mul_pos (Nat.pow_pos (n := k + 1) (show 0 < 10 by decide)) hunit
      rw [← Nat.mul_assoc, Nat.mul_left_comm] at hexpanded
      rw [Nat.mul_left_comm] at hden
      exact (Format.round_eq_iff (by decide) hden hm).2 hexpanded
    show some (scaleDown _ _) = some m
    rw [scaleDown, if_pos (Nat.le_trans hk (by decide)), hquotient]

/-! ## Single values that are read as double ones -/

section Single

variable {m wide r : Nat}
  (hwide : (double.value wide).1 = (single.value m).1 * 2 ^ (double.scale - single.scale))

include hwide

/-- The wide value is the same number. -/
theorem rat_wide : double.rat wide = single.rat m := by
  have hscale : double.scale = single.scale + (double.scale - single.scale) := rfl
  have hunit : (2 ^ (double.scale - single.scale) : ℚ) ≠ 0 := pow_ne_zero _ (by norm_num)
  rw [Format.rat_eq, Format.rat_eq, hwide, hscale, Nat.add_sub_cancel_left, Nat.pow_add,
    Nat.cast_mul, Nat.cast_mul]
  exact mul_div_mul_right _ _ (Nat.cast_ne_zero.2 (Nat.ne_of_gt (Nat.two_pow_pos _)))

/-- Wide values of single ones are normal. -/
theorem normal_wide (hpos : 0 < m) : 2 ^ 52 ≤ wide := by
  have hone : (single.value 1).1 = 2 := by decide
  have hfirst : (double.value (2 ^ 52)).1 ≤ 2 * 2 ^ (double.scale - single.scale) := by
    have hvalue : (double.value (2 ^ 52)).1 = 2 * 2 ^ 52 := by decide
    rw [hvalue]
    exact Nat.mul_le_mul_left _ (Nat.pow_le_pow_right (by decide) (by decide))
  have hvalue : 2 * 2 ^ (double.scale - single.scale) ≤ (double.value wide).1 := by
    rw [hwide]
    exact Nat.mul_le_mul_right _ (hone ▸ single.value_mono hpos)
  exact double.value_strictMono.le_iff_le.1 (Nat.le_trans hfirst hvalue)

/-- Around a single value all double values that are few units apart are rounded to it. -/
theorem round_single_of_apart (hm : m < single.infinity) (hle : r ≤ wide + 7)
    (hge : wide ≤ r + 7) : single.round (double.value r).1 (2 ^ double.scale) = m := by
  have hsame := rat_wide hwide
  rcases Nat.eq_zero_or_pos m with rfl | hpos
  · have hzero : (double.value wide).1 = (double.value 0).1 := by
      rw [hwide, show (single.value 0).1 = 0 from by decide, Nat.zero_mul]
      decide
    obtain rfl : wide = 0 := double.value_strictMono.injective hzero
    have hseven : single.round (double.value 7).1 (2 ^ double.scale) = 0 := by decide +kernel
    have hmono := single.round_mono (Nat.two_pow_pos double.scale) (double.value_mono hle)
    rw [Nat.zero_add, hseven] at hmono
    exact Nat.le_zero.1 hmono
  refine (Format.round_eq_iff (by decide) (Nat.two_pow_pos _) hm).2 ?_
  have hnormal := normal_wide hwide hpos
  -- seven units of the double format are less than half of a spacing of the single one
  have hup := (double.rat_mono hle).trans (double.rat_add_ge wide 7)
  have hdown := double.rat_add_ge (wide - 7) 7
  have hlow := double.rat_mono (by omega : wide - 7 ≤ r)
  have hspacing := Format.spacing_le (c := 1) (Nat.le_refl 1) (m := wide) (by omega)
  have hspacing' := Format.spacing_le (c := 1) (Nat.le_refl 1) (m := wide + 7) (by omega)
  have hgrown := double.rat_add_ge wide 7
  rw [Nat.sub_add_cancel (by omega)] at hdown
  rw [Nat.cast_one, one_mul] at hspacing hspacing'
  rw [hsame] at hup hdown hspacing hgrown
  have habove := single.rat_succ m
  have hbefore := single.rat_succ (m - 1)
  rw [Nat.sub_add_cancel hpos] at hbefore
  have hwidth : (2 : ℚ) * 2 ^ single.fractionBits = 2 ^ 24 := by
    rw [show single.fractionBits = 23 from rfl]
    norm_num
  have hlt := single.rat_lt m
  have hlt' := single.rat_lt (m - 1)
  rw [hwidth] at hlt hlt'
  have hr : double.rat r = (double.value r).1 / (2 ^ double.scale : Nat) := rfl
  refine Format.IsNear.of_rat_lt (Nat.two_pow_pos _) ?_ ?_
  · rw [← hr]
    push_cast at hup hdown hgrown
    linarith
  · rw [← hr]
    push_cast at hup hdown hgrown
    linarith

end Single

end TableScan.Binary
