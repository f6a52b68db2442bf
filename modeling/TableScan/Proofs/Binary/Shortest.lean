import Mathlib.Tactic.Positivity
import TableScan.Proofs.Binary.Closeness
import TableScan.Proofs.Binary.Decimals

/-!
# Shortest decimals

Every finite magnitude other than zero has a shortest decimal: the narrowest of the grids that are
tried is narrower than the spacing of the magnitudes there (`isNarrow_lastGrid`), and the coarsest
one is not (`isNarrow_coarsestGrid`). So the grid that the decimal is found on is no more than ten
times narrower than it has to be, which bounds the digits.

Main statement: the shortest decimal is near to its magnitude and has fewer than eighteen digits
(`shortest_isNear`).
-/

namespace TableScan.Binary

/-! ## Decimals as numbers -/

namespace Decimal

/-- A decimal as a number. -/
def ratio (d : Decimal) : ℚ := d.digits * 10 ^ d.exponent

/-- The pair that a decimal is read as stands for its number. -/
theorem value_div (d : Decimal) : (d.value.1 : ℚ) / d.value.2 = d.ratio := by
  obtain ⟨digits, exponent⟩ := d
  unfold ratio
  cases exponent with
  | ofNat k =>
    show ((digits * 10 ^ k : Nat) : ℚ) / (1 : Nat) = digits * 10 ^ (k : Int)
    push_cast
    rw [div_one, zpow_natCast]
  | negSucc k =>
    show (digits : ℚ) / (10 ^ (k + 1) : Nat) = digits * 10 ^ Int.negSucc k
    push_cast
    rw [zpow_negSucc, div_eq_mul_inv]

/-- Stripping zeros keeps the number. -/
theorem ratio_stripZeros (n : Nat) (d : Decimal) : (d.stripZeros n).ratio = d.ratio := by
  induction n generalizing d with
  | zero => rfl
  | succ n ih =>
    unfold stripZeros
    split
    · next hzero =>
      simp only [Bool.and_eq_true, decide_eq_true_eq] at hzero
      -- a last digit of zero is a tenth more of the exponent
      have hdigits : d.digits = d.digits / 10 * 10 := by omega
      have hcast : (d.digits : ℚ) = (d.digits / 10 : Nat) * 10 := by exact_mod_cast hdigits
      rw [ih]
      unfold ratio
      simp only
      rw [hcast, zpow_add₀ (by norm_num), zpow_one]
      ring
    · rfl

/-- It does not add digits. -/
theorem digits_stripZeros_le (n : Nat) (d : Decimal) : (d.stripZeros n).digits ≤ d.digits := by
  induction n generalizing d with
  | zero => exact Nat.le_refl _
  | succ n ih =>
    unfold stripZeros
    split
    · exact Nat.le_trans (ih _) (Nat.div_le_self _ _)
    · exact Nat.le_refl _

end Decimal

/-! ## Grids -/

/-- The coarsest grid that is tried for values with a binary logarithm. -/
def coarsestGrid (log : Nat) : Int := ((log : Int) - double.scale + 1) * 302 / 1000 + 3

/-- Whether a grid is narrower than the spacing that comes with an exponent. -/
def isNarrow (exponent : Nat) (e : Int) : Bool :=
  2 ^ double.scale * (Decimal.mk 1 e).value.1 < 2 ^ exponent * (Decimal.mk 1 e).value.2

/-- The binary logarithms of the values right behind magnitudes with an exponent. -/
def leastLog (exponent : Nat) : Nat := if exponent = 1 then 1 else exponent + 52

theorem coarsestGrid_mono {a b : Nat} (h : a ≤ b) : coarsestGrid a ≤ coarsestGrid b := by
  unfold coarsestGrid
  omega

/-- Units of the scale as powers of two. -/
theorem unit_eq_zpow (k : Nat) :
    ((2 ^ k : Nat) / (2 ^ double.scale : Nat) : ℚ) = 2 ^ ((k : Int) - double.scale) := by
  rw [zpow_sub₀ two_ne_zero, zpow_natCast, zpow_natCast, Nat.cast_pow, Nat.cast_pow,
    Nat.cast_ofNat]

/-- The grid as a power of ten against the spacing as a power of two. -/
theorem isNarrow_iff {k : Nat} {e : Int} :
    isNarrow k e = true ↔ (10 : ℚ) ^ e < 2 ^ ((k : Int) - double.scale) := by
  have hratio := Decimal.value_div ⟨1, e⟩
  have hden : (0 : ℚ) < (Decimal.mk 1 e).value.2 :=
    Nat.cast_pos.2 (Decimal.den_pos _)
  unfold Decimal.ratio at hratio
  simp only [Nat.cast_one, one_mul] at hratio
  rw [← hratio, ← unit_eq_zpow, div_lt_div_iff₀ hden double.unit_pos]
  unfold isNarrow
  rw [decide_eq_true_eq, Nat.mul_comm (2 ^ double.scale)]
  exact_mod_cast Iff.rfl

/-- A narrower grid is narrow too. -/
theorem isNarrow_mono {k : Nat} {e e' : Int} (h : e ≤ e') (hnarrow : isNarrow k e' = true) :
    isNarrow k e = true := by
  rw [isNarrow_iff] at hnarrow ⊢
  exact (zpow_le_zpow_right₀ (by norm_num) h).trans_lt hnarrow

/-! ## Powers of ten between powers of two

One thousand is a little less than the tenth power of two, and the power of ten with twenty-eight
zeros a little more than the ninety-third.
-/

theorem zpow_pow_comm (x : ℚ) (e : Int) (n : Nat) : (x ^ e) ^ n = (x ^ n) ^ e := by
  rw [← zpow_natCast, ← zpow_natCast x n, ← zpow_mul, ← zpow_mul, mul_comm]

theorem zpow_anti {x y : ℚ} (hx : 0 < x) (h : x ≤ y) {e : Int} (he : e ≤ 0) :
    y ^ e ≤ x ^ e := by
  obtain ⟨k, rfl⟩ : ∃ k : Nat, e = -k := ⟨e.natAbs, by omega⟩
  rw [zpow_neg, zpow_neg, zpow_natCast, zpow_natCast]
  exact inv_anti₀ (pow_pos hx k) (pow_le_pow_left₀ hx.le h k)

/-- A power of ten is below a power of two if the exponents are, in both ratios. -/
theorem ten_zpow_lt {e n : Int} (hpos : 10 * e < 3 * n) (hneg : 93 * e < 28 * n) :
    (10 : ℚ) ^ e < 2 ^ n := by
  rcases le_total 0 e with he | he
  · refine lt_of_pow_lt_pow_left₀ 3 (zpow_pos two_pos n).le ?_
    -- upwards the estimate of one thousand decides
    calc ((10 : ℚ) ^ e) ^ 3 = (10 ^ 3) ^ e := zpow_pow_comm 10 e 3
      _ ≤ (2 ^ (10 : Int)) ^ e := zpow_le_zpow_left₀ he (by norm_num) (by norm_num)
      _ = 2 ^ (10 * e) := (zpow_mul 2 10 e).symm
      _ < 2 ^ (3 * n) := zpow_lt_zpow_right₀ one_lt_two hpos
      _ = (2 ^ n) ^ 3 := by rw [mul_comm, zpow_mul]; rfl
  · refine lt_of_pow_lt_pow_left₀ 28 (zpow_pos two_pos n).le ?_
    -- downwards it is that of the greater power
    calc ((10 : ℚ) ^ e) ^ 28 = (10 ^ 28) ^ e := zpow_pow_comm 10 e 28
      _ ≤ (2 ^ (93 : Int)) ^ e := zpow_anti (by norm_num) (by norm_num) he
      _ = 2 ^ (93 * e) := (zpow_mul 2 93 e).symm
      _ < 2 ^ (28 * n) := zpow_lt_zpow_right₀ one_lt_two hneg
      _ = (2 ^ n) ^ 28 := by rw [mul_comm, zpow_mul]; rfl

/-- The other way round the two estimates change places. -/
theorem two_zpow_le {e n : Int} (hpos : 28 * n ≤ 93 * e) (hneg : 3 * n ≤ 10 * e) :
    (2 : ℚ) ^ n ≤ 10 ^ e := by
  rcases le_total 0 e with he | he
  · refine le_of_pow_le_pow_left₀ (n := 28) (by norm_num) (zpow_pos (by norm_num) e).le ?_
    calc ((2 : ℚ) ^ n) ^ 28 = 2 ^ (28 * n) := by rw [mul_comm, zpow_mul]; rfl
      _ ≤ 2 ^ (93 * e) := zpow_le_zpow_right₀ one_le_two hpos
      _ = (2 ^ (93 : Int)) ^ e := zpow_mul 2 93 e
      _ ≤ (10 ^ 28) ^ e := zpow_le_zpow_left₀ he (by norm_num) (by norm_num)
      _ = (10 ^ e) ^ 28 := (zpow_pow_comm 10 e 28).symm
  · refine le_of_pow_le_pow_left₀ (n := 3) (by norm_num) (zpow_pos (by norm_num) e).le ?_
    calc ((2 : ℚ) ^ n) ^ 3 = 2 ^ (3 * n) := by rw [mul_comm, zpow_mul]; rfl
      _ ≤ 2 ^ (10 * e) := zpow_le_zpow_right₀ one_le_two hneg
      _ = (2 ^ (10 : Int)) ^ e := zpow_mul 2 10 e
      _ ≤ (10 ^ 3) ^ e := zpow_anti (by norm_num) (by norm_num) he
      _ = (10 ^ e) ^ 3 := (zpow_pow_comm 10 e 3).symm

section Grids

variable {k : Nat} (hk : k < 2046)

include hk

/-- The last grid that is tried is narrow enough. -/
theorem isNarrow_lastGrid : isNarrow (k + 1) (coarsestGrid (k + 54) - 23) = true := by
  have hscale : double.scale = 1075 := rfl
  rw [isNarrow_iff, hscale]
  unfold coarsestGrid
  rw [hscale]
  exact ten_zpow_lt (by omega) (by omega)

/-- The first one is not. -/
theorem isNarrow_coarsestGrid : isNarrow (k + 1) (coarsestGrid (leastLog (k + 1))) = false := by
  have hscale : double.scale = 1075 := rfl
  refine Bool.eq_false_of_not_eq_true (mt isNarrow_iff.1 (not_lt.2 ?_))
  rw [hscale]
  unfold coarsestGrid leastLog
  rw [hscale]
  split
  · exact two_zpow_le (by omega) (by omega)
  · exact two_zpow_le (by omega) (by omega)

end Grids

/-! ## The shortest decimal -/

/-- The coarsest exponent depends on the binary logarithm of the value only. -/
theorem coarsestExponent_eq (m : Nat) :
    double.coarsestExponent m = coarsestGrid (Nat.log2 (double.value m).1) := by
  have hden : Nat.log2 (double.value m).2 = double.scale := Nat.log2_two_pow
  unfold Format.coarsestExponent coarsestGrid
  simp only [hden]

section Finite

variable {m : Nat} (hpos : 0 < m)

include hpos

theorem value_eq_before : (double.value m).1
    = (double.significand (m - 1) + 1) * 2 ^ double.exponent (m - 1) := by
  have hsucc := double.value_succ (m - 1)
  rw [Nat.sub_add_cancel hpos] at hsucc
  rw [hsucc, Nat.add_mul, Nat.one_mul]
  rfl

/-- The binary logarithm of a value, by the exponent of the magnitude before it. -/
theorem log2_value_bounds :
    leastLog (double.exponent (m - 1)) ≤ Nat.log2 (double.value m).1
      ∧ Nat.log2 (double.value m).1 ≤ double.exponent (m - 1) + 53 := by
  have hvalue := value_eq_before hpos
  have hsignificand := double.significand_lt (m - 1)
  have hlead := double.le_significand (m := m - 1)
  have hone := double.one_le_exponent (m - 1)
  generalize double.exponent (m - 1) = k at hvalue hlead hone ⊢
  generalize double.significand (m - 1) = q at hvalue hlead hsignificand
  have hwidth : double.fractionBits = 52 := rfl
  rw [hwidth] at hsignificand hlead
  have hpower := Nat.two_pow_pos k
  have hne : (double.value m).1 ≠ 0 := by
    rw [hvalue]
    exact Nat.mul_ne_zero (Nat.succ_ne_zero q) (Nat.ne_of_gt hpower)
  constructor
  · rw [Nat.le_log2 hne, hvalue]
    unfold leastLog
    split
    · next hfirst =>
      -- in the first binade the significand may be anything but zero
      rw [hfirst]
      omega
    · rw [Nat.pow_add, Nat.mul_comm]
      exact Nat.mul_le_mul_right _ (Nat.le_succ_of_le (hlead (by omega)))
  · refine Nat.le_of_lt_succ ((Nat.log2_lt hne).2 ?_)
    rw [hvalue, show (k + 53).succ = 54 + k by omega, Nat.pow_add]
    exact Nat.mul_lt_mul_of_pos_right (by omega) hpower

/-- A decimal on a grid that is not much narrower than a spacing has few digits. -/
theorem digits_lt {d : Decimal} (hnear : double.IsNear m d.value.1 d.value.2)
    (hwide : isNarrow (double.exponent (m - 1)) (d.exponent + 1) = false) : d.digits < 10 ^ 18 := by
  have hle := hnear.le_rat d.den_pos
  have hlt := double.rat_lt m
  have hnext := double.rat_succ m
  have hspacing := double.spacing_succ_le (m - 1)
  rw [Nat.sub_add_cancel hpos] at hspacing
  have hgrid : double.spacing (m - 1) ≤ 10 ^ d.exponent * 10 := by
    have hwide := not_lt.1 (mt isNarrow_iff.2 (Bool.eq_false_iff.1 hwide))
    rwa [← unit_eq_zpow, zpow_add₀ (by norm_num), zpow_one] at hwide
  have hpower : (0 : ℚ) < 10 ^ d.exponent := zpow_pos (by norm_num) _
  have hwidth : (2 : ℚ) * 2 ^ double.fractionBits = 2 ^ 53 := by
    rw [show double.fractionBits = 52 from rfl]
    norm_num
  rw [Decimal.value_div, Decimal.ratio, hnext] at hle
  rw [hwidth] at hlt
  -- twice the decimal is below two values and the spacing between them
  have hdigits : (d.digits : ℚ) * 10 ^ d.exponent < 10 ^ 18 * 10 ^ d.exponent := by
    linarith
  have hdigits := lt_of_mul_lt_mul_right hdigits hpower.le
  exact_mod_cast hdigits

variable (hm : m < double.infinity)

include hm

/-- Some grid is narrow enough, and the one before it is not. -/
theorem grids_of_finite :
    isNarrow (double.exponent (m - 1)) (double.coarsestExponent m - (23 : Nat)) = true
      ∧ ∀ e, double.coarsestExponent m ≤ e → isNarrow (double.exponent (m - 1)) e = false := by
  have hexponent : double.exponent (m - 1) ≤ 2046 := by
    refine max_le (by decide) (Nat.le_of_lt_succ ?_)
    rw [Nat.div_lt_iff_lt_mul (Nat.two_pow_pos _)]
    exact Nat.lt_of_le_of_lt (Nat.sub_le m 1) hm
  obtain ⟨hleast, hgreatest⟩ := log2_value_bounds hpos
  obtain ⟨k, hk⟩ := Nat.exists_eq_add_of_le' (double.one_le_exponent (m - 1))
  rw [coarsestExponent_eq]
  rw [hk] at hleast hgreatest hexponent ⊢
  have hnarrow := isNarrow_lastGrid (k := k) (by omega)
  have hwide := isNarrow_coarsestGrid (k := k) (by omega)
  -- both ends of the range of grids, at the bounds of the logarithm
  have hlow := coarsestGrid_mono hleast
  have hhigh := coarsestGrid_mono (b := k + 54) (by omega)
  refine ⟨isNarrow_mono (by omega) hnarrow, fun e he => ?_⟩
  by_contra hne
  have hnarrow' := isNarrow_mono (hlow.trans he) (Bool.eq_true_of_not_eq_false hne)
  rw [hwide] at hnarrow'
  cases hnarrow'

/-- The shortest decimal comes from a grid whose coarser neighbour was not narrow. -/
theorem exists_grid : ∃ (d : Decimal), double.roundsFrom m d = true
    ∧ isNarrow (double.exponent (m - 1)) (d.exponent + 1) = false
    ∧ double.shortest m = d.stripZeros 24 := by
  obtain ⟨hnarrow, hwide⟩ := grids_of_finite hpos hm
  have hgives : ∀ {e : Int}, isNarrow (double.exponent (m - 1)) e = true →
      double.nearestOnGrid m e ≠ none := by
    intro e he hnone
    have hsome := Format.nearestOnGrid_of_narrow hpos (of_decide_eq_true he)
    rw [hnone] at hsome
    cases hsome
  rcases double.shortest_eq_stripZeros m with ⟨hnone, -⟩ | ⟨i, d, hd, hbefore, hshortest⟩
  · exact absurd (hnone 23 (by decide)) (hgives hnarrow)
  · obtain ⟨hexponent, hrounds⟩ := Format.roundsFrom_of_nearestOnGrid hd
    refine ⟨d, hrounds, ?_, hshortest⟩
    -- the first grid is wide anyway
    cases i with
    | zero => exact hwide _ (by omega)
    | succ i =>
      -- the grid before gave nothing
      have hprevious : d.exponent + 1 = double.coarsestExponent m - (i : Nat) := by omega
      rw [hprevious]
      exact Bool.eq_false_of_not_eq_true fun h => hgives h (hbefore i (Nat.lt_succ_self i))

/-- The shortest decimal of a finite magnitude is near to it and has no more than eighteen
digits. -/
theorem shortest_isNear :
    double.IsNear m (double.shortest m).value.1 (double.shortest m).value.2
      ∧ (double.shortest m).digits < 10 ^ 18 := by
  obtain ⟨d, hrounds, hwide, hshortest⟩ := exists_grid hpos hm
  have hnear := Format.roundsFrom_iff.1 hrounds
  have hdigits := digits_lt hpos hnear hwide
  rw [hshortest]
  refine ⟨hnear.of_mul_eq d.den_pos (Decimal.den_pos _) ?_,
    Nat.lt_of_le_of_lt (Decimal.digits_stripZeros_le 24 d) hdigits⟩
  have hratio := Decimal.ratio_stripZeros 24 d
  rw [← Decimal.value_div, ← Decimal.value_div, div_eq_div_iff
    (Nat.cast_ne_zero.2 (Nat.ne_of_gt (Decimal.den_pos _)))
    (Nat.cast_ne_zero.2 (Nat.ne_of_gt d.den_pos))] at hratio
  exact_mod_cast hratio.symm

end Finite

end TableScan.Binary
