import Mathlib.Algebra.Order.Field.Basic
import Mathlib.Algebra.Order.Ring.Pow
import Mathlib.Tactic.Linarith
import Mathlib.Tactic.Ring
import TableScan.Proofs.Binary.Nearest

/-!
# Closeness of rounded values

How far rounded values are apart is told in two ways. Two numbers are close by some roundings if
each is at most the other one with as many relative errors of half a last place (`Close`), and
this adds up along products and quotients. Two magnitudes are some units in the last place apart.

Main statements: a value that is not too small is close to the quotient that was rounded to it
(`Format.close_round`), and quotients that are close are rounded to magnitudes that are few units
apart (`Format.round_apart`).
-/

namespace TableScan.Binary

/-! ## Values as numbers -/

namespace Format

variable (f : Format)

/-- The value of a magnitude as a number. -/
def rat (m : Nat) : ℚ := (f.value m).1 / (f.value m).2

theorem rat_eq (m : Nat) : f.rat m = (f.value m).1 / (2 ^ f.scale : Nat) := rfl

theorem unit_pos : (0 : ℚ) < (2 ^ f.scale : Nat) := Nat.cast_pos.2 (Nat.two_pow_pos _)

/-- Greater magnitudes have greater values. -/
theorem rat_strictMono : StrictMono f.rat := fun _ _ h =>
  div_lt_div_of_pos_right (Nat.cast_lt.2 (f.value_strictMono h)) f.unit_pos

theorem rat_mono : Monotone f.rat := f.rat_strictMono.monotone

theorem rat_nonneg (m : Nat) : 0 ≤ f.rat m := div_nonneg (Nat.cast_nonneg _) (Nat.cast_nonneg _)

/-- Only the magnitude zero has the value zero. -/
theorem rat_pos {m : Nat} (h : 0 < m) : 0 < f.rat m :=
  (f.rat_nonneg 0).trans_lt (f.rat_strictMono h)

/-- The spacing of the magnitudes behind a magnitude. -/
def spacing (m : Nat) : ℚ := (2 ^ f.exponent m : Nat) / (2 ^ f.scale : Nat)

theorem spacing_pos (m : Nat) : 0 < f.spacing m :=
  div_pos (Nat.cast_pos.2 (Nat.two_pow_pos _)) f.unit_pos

/-- The magnitudes lie further apart the greater they are. -/
theorem spacing_mono {m n : Nat} (h : m ≤ n) : f.spacing m ≤ f.spacing n :=
  div_le_div_of_nonneg_right
    (Nat.cast_le.2 (Nat.pow_le_pow_right (by decide) (f.exponent_mono h))) f.unit_pos.le

/-- From one magnitude to the next the spacing doubles at most. -/
theorem spacing_succ_le (m : Nat) : f.spacing (m + 1) ≤ 2 * f.spacing m := by
  -- a step of one enters at most the next binade
  have hexponent : f.exponent (m + 1) ≤ f.exponent m + 1 := by
    refine max_le (Nat.le_add_left 1 _) (Nat.div_le_of_le_mul ?_)
    rw [Nat.mul_comm]
    exact f.lt_exponent m
  have hpower : ((2 ^ f.exponent (m + 1) : Nat) : ℚ) ≤ 2 * (2 ^ f.exponent m : Nat) := by
    have hle := Nat.pow_le_pow_right (show 0 < 2 by decide) hexponent
    rw [Nat.pow_succ'] at hle
    exact_mod_cast hle
  unfold spacing
  rw [← mul_div_assoc]
  exact div_le_div_of_nonneg_right hpower f.unit_pos.le

/-- The spacing is the distance to the next value. -/
theorem rat_succ (m : Nat) : f.rat (m + 1) = f.rat m + f.spacing m := by
  rw [rat_eq, rat_eq, value_succ, Nat.cast_add, add_div]
  rfl

theorem rat_eq_mul_spacing (m : Nat) : f.rat m = f.significand m * f.spacing m := by
  rw [rat_eq, show (f.value m).1 = f.significand m * 2 ^ f.exponent m from rfl, Nat.cast_mul,
    mul_div_assoc]
  rfl

/-- A value is less than the spacing behind it times the significands. -/
theorem rat_lt (m : Nat) : f.rat m < 2 * 2 ^ f.fractionBits * f.spacing m := by
  have hlt : (f.significand m : ℚ) < 2 * 2 ^ f.fractionBits := by
    exact_mod_cast f.significand_lt m
  rw [rat_eq_mul_spacing]
  exact mul_lt_mul_of_pos_right hlt (f.spacing_pos m)

/-- Some steps up are at least as many spacings of where they start. -/
theorem rat_add_le (m j : Nat) : f.rat m + j * f.spacing m ≤ f.rat (m + j) := by
  induction j with
  | zero => simp
  | succ j ih =>
    -- the next step is no shorter than the first one
    have hspacing := f.spacing_mono (Nat.le_add_right m j)
    rw [← Nat.add_assoc, rat_succ, Nat.cast_succ, add_mul, one_mul]
    linarith

/-- They are at most as many spacings of where they end. -/
theorem rat_add_ge (m j : Nat) : f.rat (m + j) ≤ f.rat m + j * f.spacing (m + j) := by
  induction j with
  | zero => simp
  | succ j ih =>
    have hspacing := f.spacing_mono (Nat.le_succ (m + j))
    have hscaled := mul_le_mul_of_nonneg_left hspacing (Nat.cast_nonneg (α := ℚ) j)
    rw [← Nat.add_assoc, rat_succ, Nat.cast_succ, add_mul, one_mul]
    linarith

variable {f} {m n num den : Nat}

namespace IsNear

/-- A quotient near to a magnitude is not below the middle before it. -/
theorem rat_le (h : f.IsNear m num den) (hden : 0 < den) :
    f.rat (m - 1) + f.rat m ≤ 2 * (num / den : ℚ) := by
  have hbelow : (((f.value (m - 1)).1 + (f.value m).1 : Nat) : ℚ) * den
      ≤ 2 * num * (2 ^ f.scale : Nat) := by
    exact_mod_cast h.below
  rw [rat_eq, rat_eq, ← add_div, ← Nat.cast_add, div_le_iff₀ f.unit_pos, mul_assoc,
    div_mul_eq_mul_div, ← mul_div_assoc, le_div_iff₀ (Nat.cast_pos.2 hden), ← mul_assoc]
  exact hbelow

/-- It is not above the middle behind it either. -/
theorem le_rat (h : f.IsNear m num den) (hden : 0 < den) :
    2 * (num / den : ℚ) ≤ f.rat (m + 1) + f.rat m := by
  have habove : 2 * num * (2 ^ f.scale : Nat)
      ≤ (((f.value (m + 1)).1 + (f.value m).1 : Nat) : ℚ) * den := by
    exact_mod_cast h.above
  -- the middle over the common denominator, and then cleared of both denominators
  rw [rat_eq, rat_eq, ← add_div, ← Nat.cast_add, le_div_iff₀ f.unit_pos, mul_assoc,
    div_mul_eq_mul_div, ← mul_div_assoc, div_le_iff₀ (Nat.cast_pos.2 hden), ← mul_assoc]
  exact habove

/-- Between the middles on either side of a magnitude its parity does not matter. -/
theorem of_rat_lt (hden : 0 < den) (hbelow : f.rat (m - 1) + f.rat m < 2 * (num / den : ℚ))
    (habove : 2 * (num / den : ℚ) < f.rat (m + 1) + f.rat m) : f.IsNear m num den := by
  have hden : (0 : ℚ) < den := Nat.cast_pos.2 hden
  rw [rat_eq, rat_eq, ← add_div, ← Nat.cast_add, div_lt_iff₀ f.unit_pos, mul_assoc,
    div_mul_eq_mul_div, ← mul_div_assoc, lt_div_iff₀ hden, ← mul_assoc] at hbelow
  rw [rat_eq, rat_eq, ← add_div, ← Nat.cast_add, lt_div_iff₀ f.unit_pos, mul_assoc,
    div_mul_eq_mul_div, ← mul_div_assoc, div_lt_iff₀ hden, ← mul_assoc] at habove
  have hbelow : ((f.value (m - 1)).1 + (f.value m).1) * den < 2 * num * 2 ^ f.scale := by
    exact_mod_cast hbelow
  have habove : 2 * num * 2 ^ f.scale < ((f.value (m + 1)).1 + (f.value m).1) * den := by
    exact_mod_cast habove
  exact ⟨Nat.le_of_lt hbelow, Nat.le_of_lt habove, fun h => by omega⟩

end IsNear

/-- A quotient that is not above a value is not rounded to a greater one. -/
theorem round_le (hfraction : 0 < f.fractionBits) (hden : 0 < den) (h : (num / den : ℚ) ≤ f.rat n) :
    f.round num den ≤ n := by
  obtain ⟨m, hm, hround⟩ := exists_isNear hfraction hden num
  rw [hround]
  refine Nat.le_trans (Nat.min_le_right _ _) ?_
  by_contra hlt
  have hlt := Nat.lt_of_not_le hlt
  -- a greater magnitude would have its middle above the value
  have hbelow := hm.rat_le hden
  have hbefore := f.rat_mono (Nat.le_sub_one_of_lt hlt)
  have hstep := f.rat_strictMono hlt
  linarith

/-- A quotient that is not below a value is not rounded to a smaller one, infinity apart. -/
theorem le_round (hfraction : 0 < f.fractionBits) (hden : 0 < den) (hn : n ≤ f.infinity)
    (h : f.rat n ≤ (num / den : ℚ)) : n ≤ f.round num den := by
  obtain ⟨m, hm, hround⟩ := exists_isNear hfraction hden num
  rw [hround]
  refine Nat.le_min.2 ⟨hn, ?_⟩
  by_contra hlt
  have hlt := Nat.lt_of_not_le hlt
  have habove := hm.le_rat hden
  have hafter : f.rat (m + 1) ≤ f.rat n := f.rat_mono hlt
  have hstep := f.rat_strictMono hlt
  linarith

end Format

/-! ## Relative errors -/

/-- A rounded value is at most this many times what it was rounded from. -/
def errorFactor : ℚ := 1 + 1 / 2 ^ 53

theorem errorFactor_pos : 0 < errorFactor := by
  unfold errorFactor
  norm_num

/-- Six roundings are off by less than seven errors in a row would be if they just added up. -/
theorem errorFactor_pow_lt : errorFactor ^ 6 < 1 + (6 + 1 : Nat) * (1 / 2 ^ 53) := by
  unfold errorFactor
  norm_num

/-- `Close c x y`: two numbers are apart by no more than the relative errors of `c` roundings. -/
def Close (c : Nat) (x y : ℚ) : Prop := x ≤ y * errorFactor ^ c ∧ y ≤ x * errorFactor ^ c

namespace Close

variable {a b : Nat} {w x y z : ℚ}

theorem symm (h : Close a x y) : Close a y x := ⟨h.2, h.1⟩

/-- More roundings allow more. -/
theorem mono (hab : a ≤ b) (hx : 0 ≤ x) (hy : 0 ≤ y) (h : Close a x y) : Close b x y := by
  have hone : 1 ≤ errorFactor := by
    unfold errorFactor
    norm_num
  have hle := pow_le_pow_right₀ hone hab
  exact ⟨h.1.trans (mul_le_mul_of_nonneg_left hle hy), h.2.trans (mul_le_mul_of_nonneg_left hle hx)⟩

/-- Errors add up along a chain. -/
theorem trans (hxy : Close a x y) (hyz : Close b y z) : Close (a + b) x z := by
  have ha : 0 ≤ errorFactor ^ a := pow_nonneg errorFactor_pos.le a
  have hb : 0 ≤ errorFactor ^ b := pow_nonneg errorFactor_pos.le b
  constructor
  -- the errors of both steps are multiplied, which adds their numbers
  · calc x ≤ y * errorFactor ^ a := hxy.1
      _ ≤ z * errorFactor ^ b * errorFactor ^ a := mul_le_mul_of_nonneg_right hyz.1 ha
      _ = z * errorFactor ^ (a + b) := by ring
  · calc z ≤ y * errorFactor ^ b := hyz.2
      _ ≤ x * errorFactor ^ a * errorFactor ^ b := mul_le_mul_of_nonneg_right hxy.2 hb
      _ = x * errorFactor ^ (a + b) := by ring

/-- The errors of the factors add up in a product. -/
theorem mul (hxy : Close a x y) (hzw : Close b z w) (hx : 0 ≤ x) (hy : 0 ≤ y) (hz : 0 ≤ z)
    (hw : 0 ≤ w) : Close (a + b) (x * z) (y * w) := by
  have ha : 0 ≤ errorFactor ^ a := pow_nonneg errorFactor_pos.le a
  constructor
  · calc x * z ≤ y * errorFactor ^ a * (w * errorFactor ^ b) :=
          mul_le_mul hxy.1 hzw.1 hz (mul_nonneg hy ha)
      _ = y * w * errorFactor ^ (a + b) := by ring
  · calc y * w ≤ x * errorFactor ^ a * (z * errorFactor ^ b) :=
          mul_le_mul hxy.2 hzw.2 hw (mul_nonneg hx ha)
      _ = x * z * errorFactor ^ (a + b) := by ring

/-- The reciprocals are apart by the same errors. -/
theorem inv (h : Close a x y) (hx : 0 < x) (hy : 0 < y) : Close a x⁻¹ y⁻¹ := by
  constructor
  · rw [inv_le_iff_one_le_mul₀ hx, mul_comm, ← mul_assoc, ← div_eq_mul_inv, div_mul_eq_mul_div,
      one_le_div hy]
    exact h.2
  · rw [inv_le_iff_one_le_mul₀ hy, mul_comm, ← mul_assoc, ← div_eq_mul_inv, div_mul_eq_mul_div,
      one_le_div hx]
    exact h.1

/-- The errors of both sides add up in a quotient. -/
theorem div (hxy : Close a x y) (hzw : Close b z w) (hx : 0 ≤ x) (hy : 0 ≤ y) (hz : 0 < z)
    (hw : 0 < w) : Close (a + b) (x / z) (y / w) := by
  rw [div_eq_mul_inv, div_eq_mul_inv]
  exact hxy.mul (hzw.inv hz hw) hx hy (inv_nonneg.2 hz.le) (inv_nonneg.2 hw.le)

end Close

namespace Format

variable {m n num den num' den' c : Nat}

/-- From the `c`-th part of the first normal magnitude on, a spacing is no more than `c` of the last
places that the significand has. -/
theorem spacing_le (hc : 1 ≤ c) (h : 2 ^ 52 ≤ c * m) :
    2 ^ 52 * double.spacing m ≤ c * double.rat m := by
  have hsignificand : 2 ^ 52 ≤ c * double.significand m := by
    have hsum := double.significand_add m
    -- in the first binade the magnitude is its own significand, and behind it the significand is
    -- full
    by_cases hfirst : double.exponent m = 1
    · rw [hfirst, Nat.sub_self, Nat.zero_mul, Nat.add_zero] at hsum
      rwa [hsum]
    · have hone := double.one_le_exponent m
      exact Nat.le_trans (double.le_significand (by omega)) (Nat.le_mul_of_pos_left _ hc)
  have hsignificand : (2 : ℚ) ^ 52 ≤ c * double.significand m := by exact_mod_cast hsignificand
  rw [rat_eq_mul_spacing, ← mul_assoc]
  exact mul_le_mul_of_nonneg_right hsignificand (double.spacing_pos m).le

/-- A value that is not too small is close to the quotient that was rounded to it. -/
theorem close_round (hc : 1 ≤ c) (hden : 0 < den) (hfinite : double.round num den < double.infinity)
    (hsize : 2 ^ 52 ≤ c * (double.round num den - 1)) :
    Close c (double.rat (double.round num den)) (num / den) := by
  have hnear := (round_eq_iff (by decide) hden hfinite).1 rfl
  generalize double.round num den = r at hsize hnear ⊢
  have hpos : 1 ≤ r := by
    by_contra hzero
    obtain rfl : r = 0 := by omega
    simp at hsize
  -- the quotient lies between the middles, and these are half a spacing away
  have hbelow := hnear.rat_le hden
  have habove := hnear.le_rat hden
  have hbefore := spacing_le hc hsize
  have hafter := spacing_le hc (Nat.le_trans hsize (Nat.mul_le_mul_left c (Nat.sub_le r 1)))
  have hstep := double.rat_succ (r - 1)
  rw [Nat.sub_add_cancel hpos] at hstep
  have hstep' := double.rat_succ r
  generalize (num / den : ℚ) = x at hbelow habove ⊢
  have hspacing := (double.spacing_pos (r - 1)).le
  -- Bernoulli: single errors in a row are no less than their sum
  have hbernoulli : 1 + c * (1 / 2 ^ 53) ≤ errorFactor ^ c :=
    one_add_mul_le_pow (by norm_num) c
  have hx : 0 ≤ x := by linarith [double.rat_nonneg (r - 1), double.rat_nonneg r]
  have hr := double.rat_nonneg r
  constructor
  · calc double.rat r ≤ x * (1 + c * (1 / 2 ^ 53)) := by
          have hle : c * double.rat (r - 1) ≤ c * x :=
            mul_le_mul_of_nonneg_left (by linarith) (Nat.cast_nonneg c)
          linarith
      _ ≤ x * errorFactor ^ c := mul_le_mul_of_nonneg_left hbernoulli hx
  · calc x ≤ double.rat r * (1 + c * (1 / 2 ^ 53)) := by linarith
      _ ≤ double.rat r * errorFactor ^ c := mul_le_mul_of_nonneg_left hbernoulli hr

/-- Some units in the last place are at least as many relative errors. -/
theorem mul_le_rat_add (m j : Nat) :
    double.rat m * (1 + j * (1 / 2 ^ 53)) ≤ double.rat (m + j) := by
  have hle := double.rat_add_le m j
  have hlt := double.rat_lt m
  have hwidth : (2 : ℚ) * 2 ^ double.fractionBits = 2 ^ 53 := by
    rw [show double.fractionBits = 52 from rfl]
    norm_num
  rw [hwidth] at hlt
  -- a value is less than 2⁵³ of its spacings, so an error of it is less than one of them
  have hunits : j * double.rat m ≤ j * (2 ^ 53 * double.spacing m) :=
    mul_le_mul_of_nonneg_left hlt.le (Nat.cast_nonneg j)
  linarith

/-- Magnitudes are apart by no more units than the quotients near to them by errors, and one. -/
theorem IsNear.le_add (hc : errorFactor ^ c < 1 + (c + 1 : Nat) * (1 / 2 ^ 53)) (hden : 0 < den)
    (hden' : 0 < den') (hm : double.IsNear m num den) (hn : double.IsNear n num' den')
    (h : (num' / den' : ℚ) ≤ num / den * errorFactor ^ c) : n ≤ m + (c + 1) := by
  by_contra hlt
  have hbelow := hn.rat_le hden'
  have habove := hm.le_rat hden
  -- the two middles around the greater magnitude are that many errors above those around the
  -- smaller
  have hfirst := (mul_le_rat_add m (c + 1)).trans
    (double.rat_mono (Nat.le_sub_one_of_lt (Nat.lt_of_not_le hlt)))
  have hsecond := (mul_le_rat_add (m + 1) (c + 1)).trans
    (double.rat_mono (by omega : m + 1 + (c + 1) ≤ n))
  have hpos : 0 < double.rat (m + 1) + double.rat m :=
    add_pos_of_pos_of_nonneg (double.rat_pos (Nat.succ_pos m)) (double.rat_nonneg m)
  have hstrict := mul_lt_mul_of_pos_left hc hpos
  have hscaled := mul_le_mul_of_nonneg_right habove (pow_nonneg errorFactor_pos.le c)
  linarith

/-- What is close to a quotient near to a magnitude is rounded to one few units apart. -/
theorem round_apart (hc : errorFactor ^ c < 1 + (c + 1 : Nat) * (1 / 2 ^ 53)) (hden : 0 < den)
    (hden' : 0 < den') (hm : double.IsNear m num den) (hfinite : m < double.infinity)
    (h : Close c (num' / den') (num / den)) :
    double.round num' den' ≤ m + (c + 1) ∧ m ≤ double.round num' den' + (c + 1) := by
  obtain ⟨n, hn, hround⟩ := exists_isNear (f := double) (by decide) hden' num'
  have hle := hm.le_add hc hden hden' hn h.1
  have hge := hn.le_add hc hden' hden hm h.2
  rw [hround]
  omega

end Format

end TableScan.Binary
