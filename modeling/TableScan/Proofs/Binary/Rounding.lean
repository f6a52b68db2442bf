import Mathlib.Order.MinMax
import TableScan.Binary.Format

/-!
# Rounding keeps order

The values of a format ascend with its magnitudes, by one spacing at a time (`Format.value_succ`),
the nearest integer is no more than half a unit away (`Format.roundToEven_near`), and a greater
quotient is not rounded to a smaller magnitude (`Format.round_mono`), so neither is a product with a
greater factor (`Format.mul_mono_left`).

Quotients are rounded within a binade (`Format.binade`), where the unit is shared. Across binades
the rounded significands decide nothing: the end of one binade is the start of the next.
-/

namespace TableScan.Binary.Format

/-! ## The nearest integer -/

/-- The nearest integer is no more than half a unit away. -/
theorem roundToEven_near {den : Nat} (hden : 0 < den) (num : Nat) :
    2 * num ≤ 2 * (roundToEven num den * den) + den
      ∧ 2 * (roundToEven num den * den) ≤ 2 * num + den := by
  have hdiv : num / den * den + num % den = num := by
    rw [Nat.mul_comm]
    exact Nat.div_add_mod num den
  have hmod := Nat.mod_lt num hden
  unfold roundToEven
  simp only
  split
  · next h =>
    -- rounded up: the remainder is half a unit or more
    have hhalf : den ≤ 2 * (num % den) := by
      simp only [Bool.or_eq_true, decide_eq_true_eq, Bool.and_eq_true, beq_iff_eq] at h
      omega
    rw [Nat.add_mul, Nat.one_mul]
    omega
  · next h =>
    -- rounded down: it is half a unit or less
    have hhalf : 2 * (num % den) ≤ den := by
      simp only [Bool.or_eq_true, decide_eq_true_eq, not_or] at h
      omega
    omega

/-- A greater quotient is not rounded to a smaller integer. -/
theorem roundToEven_mono {den : Nat} (hden : 0 < den) {num num' : Nat} (h : num ≤ num') :
    roundToEven num den ≤ roundToEven num' den := by
  obtain ⟨-, hle⟩ := roundToEven_near hden num
  obtain ⟨hge, -⟩ := roundToEven_near hden num'
  by_contra hlt
  -- the two are one apart at most, and then the same point lies in the middle between them
  have hstep : (roundToEven num' den + 1) * den ≤ roundToEven num den * den :=
    Nat.mul_le_mul_right den (Nat.succ_le_of_lt (Nat.lt_of_not_le hlt))
  rw [Nat.succ_mul] at hstep
  obtain rfl : num = num' := by omega
  exact hlt (Nat.le_refl _)

/-- Integers are not rounded. -/
@[simp] theorem roundToEven_mul_self {den : Nat} (hden : 0 < den) (n : Nat) :
    roundToEven (n * den) den = n := by
  unfold roundToEven
  simp only [Nat.mul_mod_left, Nat.mul_div_cancel n hden]
  rw [if_neg]
  simp only [Bool.or_eq_true, decide_eq_true_eq, Bool.and_eq_true, beq_iff_eq]
  omega

variable (f : Format)

/-! ## Values -/

theorem one_le_exponent (m : Nat) : 1 ≤ f.exponent m := Nat.le_max_left _ _

/-- The significand and the binades before make up a magnitude. -/
theorem significand_add (m : Nat) :
    f.significand m + (f.exponent m - 1) * 2 ^ f.fractionBits = m := by
  refine Nat.sub_add_cancel ?_
  -- the exponent is that of the magnitude, or one
  have hdiv := Nat.div_mul_le_self m (2 ^ f.fractionBits)
  refine Nat.le_trans (Nat.mul_le_mul_right _ ?_) hdiv
  unfold exponent
  generalize m / 2 ^ f.fractionBits = q
  omega

/-- A magnitude lies before the end of its binade. -/
theorem lt_exponent (m : Nat) : m < (f.exponent m + 1) * 2 ^ f.fractionBits := by
  rw [← Nat.div_lt_iff_lt_mul (Nat.two_pow_pos _)]
  exact Nat.lt_succ_of_le (Nat.le_max_right _ _)

theorem exponent_mono {m n : Nat} (h : m ≤ n) : f.exponent m ≤ f.exponent n :=
  max_le_max (Nat.le_refl 1) (Nat.div_le_div_right h)

/-- Up to the end of a binade the exponent stays. -/
theorem exponent_eq_of_lt {m n : Nat} (h : m ≤ n)
    (hlt : n < (f.exponent m + 1) * 2 ^ f.fractionBits) : f.exponent n = f.exponent m := by
  refine Nat.le_antisymm ?_ (f.exponent_mono h)
  have hdiv := Nat.le_of_lt_succ ((Nat.div_lt_iff_lt_mul (Nat.two_pow_pos _)).2 hlt)
  exact Nat.max_le.2 ⟨f.one_le_exponent m, hdiv⟩

/-- The successor of a magnitude has the next value in the spacing of the magnitude, across binades
too. -/
theorem value_succ (m : Nat) : (f.value (m + 1)).1 = (f.value m).1 + 2 ^ f.exponent m := by
  show f.significand (m + 1) * 2 ^ f.exponent (m + 1)
    = f.significand m * 2 ^ f.exponent m + 2 ^ f.exponent m
  have hm := f.significand_add m
  have hsucc := f.significand_add (m + 1)
  by_cases hsame : m + 1 < (f.exponent m + 1) * 2 ^ f.fractionBits
  -- within the binade only the significand grows
  · rw [f.exponent_eq_of_lt (Nat.le_succ m) hsame] at hsucc ⊢
    have hsig : f.significand (m + 1) = f.significand m + 1 := by omega
    rw [hsig, Nat.add_mul, Nat.one_mul]
  · -- the next binade starts here: half the significand, and double the spacing
    have hfirst : m + 1 = (f.exponent m + 1) * 2 ^ f.fractionBits :=
      Nat.le_antisymm (f.lt_exponent m) (Nat.le_of_not_lt hsame)
    have hexp : f.exponent (m + 1) = f.exponent m + 1 := by
      show max 1 ((m + 1) / 2 ^ f.fractionBits) = _
      rw [hfirst, Nat.mul_div_cancel _ (Nat.two_pow_pos _)]
      exact Nat.max_eq_right (Nat.le_add_left 1 _)
    obtain ⟨e, he⟩ := Nat.exists_eq_add_of_le' (f.one_le_exponent m)
    have hsig : f.significand m + 1 = 2 * f.significand (m + 1) := by
      rw [hexp, Nat.add_sub_cancel] at hsucc
      rw [he, Nat.add_mul, Nat.add_mul] at hfirst
      rw [he, Nat.add_sub_cancel] at hm
      rw [he, Nat.add_mul] at hsucc
      omega
    rw [hexp, Nat.pow_succ', ← Nat.mul_assoc, Nat.mul_comm _ 2, ← hsig, Nat.add_mul, Nat.one_mul]

/-- The value of a magnitude that is put together from an exponent and a significand. -/
theorem value_of_significand {e q : Nat} (he : 1 ≤ e) (hq : q ≤ 2 * 2 ^ f.fractionBits)
    (hlead : e = 1 ∨ 2 ^ f.fractionBits ≤ q) :
    (f.value ((e - 1) * 2 ^ f.fractionBits + q)).1 = q * 2 ^ e := by
  have hpos := Nat.two_pow_pos f.fractionBits
  obtain ⟨k, rfl⟩ := Nat.exists_eq_add_of_le' he
  rw [Nat.add_sub_cancel]
  show f.significand _ * 2 ^ f.exponent _ = _
  have hsum := f.significand_add (k * 2 ^ f.fractionBits + q)
  rcases Nat.eq_or_lt_of_le hq with rfl | hlt
  · -- a significand that is rounded up to the next power of two starts the next binade
    have hexp : f.exponent (k * 2 ^ f.fractionBits + 2 * 2 ^ f.fractionBits) = k + 2 := by
      show max 1 (_ / _) = _
      rw [← Nat.add_mul, Nat.mul_div_cancel _ hpos]
      exact Nat.max_eq_right (Nat.le_add_left 1 _)
    rw [hexp, show k + 2 - 1 = k + 1 from rfl, Nat.add_mul] at hsum
    rw [hexp, Nat.pow_succ', ← Nat.mul_assoc]
    congr 1
    omega
  · have hexp : f.exponent (k * 2 ^ f.fractionBits + q) = k + 1 := by
      show max 1 (_ / _) = _
      rw [Nat.mul_comm, Nat.mul_add_div hpos]
      rcases hlead with hone | hlead
      · obtain rfl : k = 0 := by omega
        have hle := Nat.le_of_lt_succ ((Nat.div_lt_iff_lt_mul hpos).2 hlt)
        omega
      · rw [Nat.div_eq_of_lt_le (by omega) (by omega : q < (1 + 1) * 2 ^ f.fractionBits)]
        exact Nat.max_eq_right (Nat.le_add_left 1 _)
    rw [hexp, Nat.add_sub_cancel] at hsum
    rw [hexp]
    congr 1
    omega

/-- Greater magnitudes have values that are no smaller. -/
theorem value_mono {m n : Nat} (h : m ≤ n) : (f.value m).1 ≤ (f.value n).1 := by
  refine monotone_nat_of_le_succ (f := fun m => (f.value m).1) (fun m => ?_) h
  show (f.value m).1 ≤ (f.value (m + 1)).1
  rw [value_succ]
  exact Nat.le_add_right _ _

/-! ## Rounded quotients -/

/-- The exponent under which a quotient is rounded: the least one under which its integer part fits
the significand. -/
def binade (num den : Nat) : Nat := max 1 (Nat.log2 (num / den) - f.fractionBits)

/-- Rounding by the name of the binade that it takes place in. -/
theorem round_eq_binade (num den : Nat) :
    f.round num den = min f.infinity
      ((f.binade (num * 2 ^ f.scale) den - 1) * 2 ^ f.fractionBits
        + roundToEven (num * 2 ^ f.scale) (den * 2 ^ f.binade (num * 2 ^ f.scale) den)) := rfl

/-- Zero is rounded to zero. -/
@[simp] theorem round_zero (den : Nat) : f.round 0 den = 0 := by
  rw [round_eq_binade]
  simp [binade, roundToEven]

section Binade

variable {den : Nat} (hden : 0 < den) (num : Nat)

include hden

/-- A quotient lies before the end of its binade. -/
theorem lt_binade : num < 2 * 2 ^ f.fractionBits * (den * 2 ^ f.binade num den) := by
  -- the integer part has no more bits than the binade and a significand together
  have hlog : num / den < 2 ^ (f.binade num den + f.fractionBits + 1) := by
    refine Nat.lt_of_lt_of_le Nat.lt_log2_self (Nat.pow_le_pow_right (by decide) ?_)
    unfold binade
    omega
  have hnum := (Nat.div_lt_iff_lt_mul hden).1 hlog
  have hsplit : 2 ^ (f.binade num den + f.fractionBits + 1) * den
      = 2 * 2 ^ f.fractionBits * (den * 2 ^ f.binade num den) := by
    rw [Nat.pow_succ', Nat.pow_add]
    ac_rfl
  omega

/-- Behind the first binade it does not lie before the start of its own. -/
theorem binade_le (h : 1 < f.binade num den) :
    2 ^ f.fractionBits * (den * 2 ^ f.binade num den) ≤ num := by
  have hlog : f.binade num den + f.fractionBits = Nat.log2 (num / den) := by
    unfold binade at h ⊢
    omega
  have hne : num / den ≠ 0 := by
    intro hzero
    rw [hzero, Nat.log2_zero] at hlog
    omega
  have hnum := (Nat.le_div_iff_mul_le hden).1 (Nat.log2_self_le hne)
  have hsplit : 2 ^ Nat.log2 (num / den) * den
      = 2 ^ f.fractionBits * (den * 2 ^ f.binade num den) := by
    rw [← hlog, Nat.pow_add]
    ac_rfl
  omega

/-- A greater quotient is not in a lower binade. -/
theorem binade_mono {num' : Nat} (h : num ≤ num') : f.binade num den ≤ f.binade num' den := by
  by_contra hlt
  have hlt := Nat.lt_of_not_le hlt
  have hone : 1 ≤ f.binade num' den := Nat.le_max_left _ _
  -- otherwise the greater quotient would end before the binade of the smaller one starts
  have hle := f.binade_le hden num (Nat.lt_of_le_of_lt hone hlt)
  have habove := f.lt_binade hden num'
  have hpow : 2 ^ (f.binade num' den + 1) ≤ 2 ^ f.binade num den :=
    Nat.pow_le_pow_right (by decide) hlt
  have hscaled : 2 * 2 ^ f.fractionBits * (den * 2 ^ f.binade num' den)
      ≤ 2 ^ f.fractionBits * (den * 2 ^ f.binade num den) := by
    rw [show 2 * 2 ^ f.fractionBits * (den * 2 ^ f.binade num' den)
      = 2 ^ f.fractionBits * (den * 2 ^ (f.binade num' den + 1)) by rw [Nat.pow_succ']; ac_rfl]
    exact Nat.mul_le_mul_left _ (Nat.mul_le_mul_left _ hpow)
  omega

end Binade

/-- A greater quotient is not rounded to a smaller magnitude. -/
theorem round_mono {den : Nat} (hden : 0 < den) {num num' : Nat} (h : num ≤ num') :
    f.round num den ≤ f.round num' den := by
  rw [round_eq_binade, round_eq_binade]
  have hscaled : num * 2 ^ f.scale ≤ num' * 2 ^ f.scale := Nat.mul_le_mul_right _ h
  generalize num * 2 ^ f.scale = x at hscaled ⊢
  generalize num' * 2 ^ f.scale = y at hscaled ⊢
  have hunit : ∀ e, 0 < den * 2 ^ e := fun e => Nat.mul_pos hden (Nat.two_pow_pos e)
  refine min_le_min (Nat.le_refl _) ?_
  rcases Nat.eq_or_lt_of_le (f.binade_mono hden x hscaled) with heq | hlt
  -- one binade: the unit is shared
  · rw [heq]
    exact Nat.add_le_add_left (roundToEven_mono (hunit _) hscaled) _
  · have hone : 1 ≤ f.binade x den := Nat.le_max_left _ _
    -- the end of the lower binade is the start of the next one, or below the higher binade
    have hlow : roundToEven x (den * 2 ^ f.binade x den) ≤ 2 * 2 ^ f.fractionBits := by
      have hle := roundToEven_mono (hunit (f.binade x den)) (Nat.le_of_lt (f.lt_binade hden x))
      rwa [roundToEven_mul_self (hunit _)] at hle
    have hhigh : 2 ^ f.fractionBits ≤ roundToEven y (den * 2 ^ f.binade y den) := by
      have hle := roundToEven_mono (hunit (f.binade y den))
        (f.binade_le hden y (Nat.lt_of_le_of_lt hone hlt))
      rwa [roundToEven_mul_self (hunit _)] at hle
    calc (f.binade x den - 1) * 2 ^ f.fractionBits + roundToEven x (den * 2 ^ f.binade x den)
        ≤ (f.binade x den - 1 + 1) * 2 ^ f.fractionBits + 2 ^ f.fractionBits := by
          rw [Nat.add_mul (f.binade x den - 1)]
          omega
      _ ≤ (f.binade y den - 1) * 2 ^ f.fractionBits + roundToEven y (den * 2 ^ f.binade y den) :=
          Nat.add_le_add (Nat.mul_le_mul_right _ (by omega)) hhigh

/-- A quotient with enough bits before the point is behind the first binade. -/
theorem one_lt_binade {den : Nat} (hden : 0 < den) {num : Nat}
    (h : 2 ^ (f.fractionBits + 2) * den ≤ num) : 1 < f.binade num den := by
  have hquotient := (Nat.le_div_iff_mul_le hden).2 h
  have hne : num / den ≠ 0 := Nat.ne_of_gt (Nat.lt_of_lt_of_le (Nat.two_pow_pos _) hquotient)
  have hlog := (Nat.le_log2 hne).2 hquotient
  unfold binade
  omega

/-- Above the first binade rounding adds at most the part of a quotient that one half of the last
place is of the significand. -/
theorem value_round_le {den : Nat} (hden : 0 < den) {num : Nat}
    (h : 1 < f.binade (num * 2 ^ f.scale) den) :
    2 * 2 ^ f.fractionBits * ((f.value (f.round num den)).1 * den)
      ≤ (2 * 2 ^ f.fractionBits + 1) * (num * 2 ^ f.scale) := by
  rw [round_eq_binade]
  generalize num * 2 ^ f.scale = x at h ⊢
  generalize he : f.binade x den = e at h ⊢
  have hunit : 0 < den * 2 ^ e := Nat.mul_pos hden (Nat.two_pow_pos e)
  obtain ⟨-, hnear⟩ := roundToEven_near hunit x
  -- the quotient lies in its binade, so the rounded significand is a full one
  have hlow := f.binade_le hden x (he ▸ h)
  have hhigh := Nat.le_of_lt (f.lt_binade hden x)
  rw [he] at hlow hhigh
  have hlead := roundToEven_mono hunit hlow
  have hfits := roundToEven_mono hunit hhigh
  rw [roundToEven_mul_self hunit] at hlead hfits
  generalize roundToEven x (den * 2 ^ e) = q at hnear hlead hfits ⊢
  have hvalue := f.value_mono (Nat.min_le_right f.infinity ((e - 1) * 2 ^ f.fractionBits + q))
  rw [f.value_of_significand (Nat.le_of_lt h) hfits (.inr hlead)] at hvalue
  generalize 2 ^ f.fractionBits = p at hlow hvalue ⊢
  calc 2 * p * ((f.value (min f.infinity ((e - 1) * p + q))).1 * den)
      ≤ 2 * p * (q * 2 ^ e * den) := Nat.mul_le_mul_left _ (Nat.mul_le_mul_right _ hvalue)
    _ = p * (2 * (q * (den * 2 ^ e))) := by ac_rfl
    _ ≤ p * (2 * x + den * 2 ^ e) := Nat.mul_le_mul_left _ hnear
    _ = p * (2 * x) + p * (den * 2 ^ e) := Nat.mul_add _ _ _
    _ ≤ p * (2 * x) + x := Nat.add_le_add_left hlow _
    _ = (2 * p + 1) * x := by
        rw [Nat.add_mul, Nat.one_mul, Nat.mul_left_comm, Nat.mul_assoc]

/-- A greater factor does not make a product smaller. -/
theorem mul_mono_left {a a' : Nat} (h : a ≤ a') (b : Nat) : f.mul a b ≤ f.mul a' b :=
  f.round_mono (Nat.mul_pos (Nat.two_pow_pos _) (Nat.two_pow_pos _))
    (Nat.mul_le_mul_right _ (f.value_mono h))

end TableScan.Binary.Format
