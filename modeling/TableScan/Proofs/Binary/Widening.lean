import Mathlib.Order.Monotone.Basic
import TableScan.Proofs.Binary.Rounding

/-!
# Exact rounding

A quotient that is a value of a format, or has no more significant bits than its values and lies in
its range, is rounded to the value that it is (`Format.round_of_exact`, `Format.round_of_value`).

The double format has more bits in both fields than the single one, so it has all of its values.
Main statement: a finite single value comes back from the double one that it is widened to
(`narrow_widen`).
-/

namespace TableScan.Binary

namespace Format

variable (f : Format)

/-! ## Values -/

/-- A significand fits one bit more than the fraction. -/
theorem significand_lt (m : Nat) : f.significand m < 2 * 2 ^ f.fractionBits := by
  have hsum := f.significand_add m
  have hlt := f.lt_exponent m
  obtain ⟨k, hk⟩ := Nat.exists_eq_add_of_le' (f.one_le_exponent m)
  rw [hk, Nat.add_sub_cancel] at hsum
  rw [hk, Nat.add_mul, Nat.add_mul] at hlt
  omega

/-- Behind the first binade a significand has its leading one. -/
theorem le_significand {m : Nat} (h : 1 < f.exponent m) : 2 ^ f.fractionBits ≤ f.significand m := by
  have hsum := f.significand_add m
  have hdiv : f.exponent m = m / 2 ^ f.fractionBits := by
    unfold exponent at h ⊢
    omega
  have hle := Nat.div_mul_le_self m (2 ^ f.fractionBits)
  rw [← hdiv] at hle
  obtain ⟨k, hk⟩ := Nat.exists_eq_add_of_le' (Nat.le_of_lt h)
  rw [hk, Nat.add_sub_cancel] at hsum
  rw [hk, Nat.add_mul, Nat.one_mul] at hle
  omega

/-- Values are told apart by their magnitudes. -/
theorem value_strictMono : StrictMono fun m => (f.value m).1 :=
  strictMono_nat_of_lt_succ fun m => by
    show (f.value m).1 < (f.value (m + 1)).1
    rw [value_succ]
    exact Nat.lt_add_of_pos_right (Nat.two_pow_pos _)

/-- A binade starts with the least significand that has all of its bits. -/
theorem value_binadeStart {e : Nat} (he : 1 ≤ e) :
    (f.value (e * 2 ^ f.fractionBits)).1 = 2 ^ f.fractionBits * 2 ^ e := by
  have hvalue := f.value_of_significand he (Nat.le_mul_of_pos_left (2 ^ f.fractionBits) Nat.two_pos)
    (.inr (Nat.le_refl _))
  obtain ⟨k, rfl⟩ := Nat.exists_eq_add_of_le' he
  rwa [Nat.add_sub_cancel, ← Nat.succ_mul] at hvalue

/-- Infinity stands where the next binade would start. -/
theorem value_infinity (h : 0 < f.exponentBits) :
    (f.value f.infinity).1 = 2 ^ f.fractionBits * 2 ^ (2 ^ f.exponentBits - 1) := by
  have htwo : 2 ^ 1 ≤ 2 ^ f.exponentBits := Nat.pow_le_pow_right (by decide) h
  exact f.value_binadeStart (by omega)

/-! ## Quotients that are values -/

/-- A quotient with no more significant bits than the format has is not rounded in a binade above
its last bit. -/
theorem binade_le_of_exact {q e den : Nat} (hden : 0 < den) (he : 1 ≤ e)
    (hq : q < 2 * 2 ^ f.fractionBits) : f.binade (q * 2 ^ e * den) den ≤ e := by
  have hlt : q * 2 ^ e < 2 ^ (f.fractionBits + e + 1) := by
    rw [Nat.pow_succ', Nat.pow_add, ← Nat.mul_assoc]
    exact Nat.mul_lt_mul_of_pos_right hq (Nat.two_pow_pos e)
  -- the bits of the significand and those of the exponent
  have hlog : Nat.log2 (q * 2 ^ e) ≤ f.fractionBits + e := by
    by_cases hzero : q * 2 ^ e = 0
    · rw [hzero, Nat.log2_zero]
      exact Nat.zero_le _
    · exact Nat.le_of_lt_succ ((Nat.log2_lt hzero).2 hlt)
  unfold binade
  rw [Nat.mul_div_cancel _ hden]
  omega

/-- A quotient in range that needs no more bits than the format has is not rounded at all. -/
theorem round_of_exact {num den q e : Nat} (hden : 0 < den) (he : 1 ≤ e)
    (hq : q < 2 * 2 ^ f.fractionBits) (hexact : num * 2 ^ f.scale = q * 2 ^ e * den)
    (hrange : q * 2 ^ e < (f.value f.infinity).1) :
    f.round num den < f.infinity ∧ (f.value (f.round num den)).1 = q * 2 ^ e := by
  obtain ⟨shift, hshift⟩ := Nat.exists_eq_add_of_le (f.binade_le_of_exact hden he hq)
  rw [round_eq_binade, hexact]
  generalize hb : f.binade (q * 2 ^ e * den) den = b at hshift ⊢
  have hone : 1 ≤ b := hb ▸ Nat.le_max_left _ _
  have hunit : 0 < den * 2 ^ b := Nat.mul_pos hden (Nat.two_pow_pos b)
  -- the quotient is a multiple of the unit of its binade
  have hpoint : q * 2 ^ e * den = q * 2 ^ shift * (den * 2 ^ b) := by
    rw [hshift, Nat.pow_add]
    ac_rfl
  -- as a multiple of the unit it stays within the binade's significands
  have hfits : q * 2 ^ shift ≤ 2 * 2 ^ f.fractionBits := by
    have hle := Nat.le_of_lt (f.lt_binade hden (q * 2 ^ e * den))
    rw [hb, hpoint] at hle
    exact Nat.le_of_mul_le_mul_right hle hunit
  have hlead : b = 1 ∨ 2 ^ f.fractionBits ≤ q * 2 ^ shift := by
    rcases Nat.eq_or_lt_of_le hone with heq | hlt
    · exact .inl heq.symm
    · have hle := f.binade_le hden (q * 2 ^ e * den) (hb ▸ hlt)
      rw [hb, hpoint] at hle
      exact .inr (Nat.le_of_mul_le_mul_right hle hunit)
  have hvalue : (f.value ((b - 1) * 2 ^ f.fractionBits + q * 2 ^ shift)).1 = q * 2 ^ e := by
    rw [f.value_of_significand hone hfits hlead, hshift, Nat.pow_add]
    ac_rfl
  rw [← hvalue] at hrange
  have hlt := f.value_strictMono.lt_iff_lt.1 hrange
  rw [hpoint, roundToEven_mul_self hunit, Nat.min_eq_right (Nat.le_of_lt hlt)]
  exact ⟨hlt, hvalue⟩

/-- A quotient that is a finite value is rounded to its magnitude. -/
theorem round_of_value {num den m : Nat} (hden : 0 < den) (hm : m < f.infinity)
    (h : num * 2 ^ f.scale = (f.value m).1 * den) : f.round num den = m := by
  have hrange : (f.value m).1 < (f.value f.infinity).1 := f.value_strictMono hm
  obtain ⟨-, hvalue⟩ := f.round_of_exact hden (f.one_le_exponent m) (f.significand_lt m) h hrange
  exact f.value_strictMono.injective hvalue

/-! ## Signs -/

/-- Every magnitude of a number stays below the sign bit. -/
theorem infinity_lt_signBit : f.infinity < f.signBit := by
  unfold infinity signBit
  rw [Nat.pow_add]
  exact Nat.mul_lt_mul_of_pos_right (Nat.sub_lt (Nat.two_pow_pos _) (by decide))
    (Nat.two_pow_pos _)

theorem magnitude_withSign (negative : Bool) {m : Nat} (h : m < f.signBit) :
    f.magnitude (f.withSign negative m) = m := by
  unfold magnitude withSign
  cases negative with
  | false => exact Nat.mod_eq_of_lt h
  | true =>
    rw [if_pos rfl, Nat.add_mod_left]
    exact Nat.mod_eq_of_lt h

theorem isNegative_withSign (negative : Bool) {m : Nat} (h : m < f.signBit) :
    f.isNegative (f.withSign negative m) = negative := by
  cases negative with
  | false => exact decide_eq_false (Nat.not_le.2 h)
  | true => exact decide_eq_true (Nat.le_add_right _ _)

/-- A word is its sign and its magnitude. -/
theorem withSign_magnitude {bits : Nat} (h : bits < 2 * f.signBit) :
    f.withSign (f.isNegative bits) (f.magnitude bits) = bits := by
  unfold withSign isNegative magnitude
  by_cases hnegative : f.signBit ≤ bits
  · rw [if_pos (decide_eq_true hnegative), Nat.mod_eq_sub_mod hnegative,
      Nat.mod_eq_of_lt (by omega)]
    omega
  · rw [if_neg (mt of_decide_eq_true hnegative), Nat.mod_eq_of_lt (Nat.not_le.1 hnegative)]

end Format

/-- A sign and a magnitude make a word. -/
theorem toNat_withSign (negative : Bool) {m : Nat} (h : m < double.signBit) :
    (UInt64.ofNat (double.withSign negative m)).toNat = double.withSign negative m := by
  have hsize : UInt64.size = 2 * double.signBit := rfl
  refine UInt64.toNat_ofNat_of_lt' ?_
  unfold Format.withSign
  split
  · omega
  · omega

/-! ## Single values as double ones -/

section

variable {m : Nat} (hm : m < single.infinity)

include hm

/-- The value of a finite single magnitude is one of the double format. -/
theorem round_single :
    double.round (single.value m).1 (single.value m).2 < double.infinity
      ∧ (double.value (double.round (single.value m).1 (single.value m).2)).1
          = (single.value m).1 * 2 ^ (double.scale - single.scale) := by
  have hscale : double.scale = single.scale + (double.scale - single.scale) := rfl
  generalize hd : double.scale - single.scale = d at hscale ⊢
  -- a finite single magnitude is in one of the first 254 binades
  have hexponent : single.exponent m ≤ 254 := by
    have hinfinity : single.infinity = 255 * 2 ^ single.fractionBits := rfl
    rw [hinfinity, ← Nat.div_lt_iff_lt_mul (Nat.two_pow_pos _)] at hm
    exact max_le (by decide) (Nat.le_of_lt_succ hm)
  have hsignificand : single.significand m < 2 ^ 24 := single.significand_lt m
  have hvalue : (single.value m).1 * 2 ^ d
      = single.significand m * 2 ^ (single.exponent m + d) := by
    rw [Nat.pow_add, ← Nat.mul_assoc]
    rfl
  rw [hvalue]
  apply double.round_of_exact (Nat.two_pow_pos _)
  · exact Nat.le_trans (single.one_le_exponent m) (Nat.le_add_right _ _)
  · exact Nat.lt_trans hsignificand (by decide)
  · rw [hscale, ← hvalue, Nat.pow_add]
    show _ = _ * 2 ^ single.scale
    ac_rfl
  · rw [double.value_infinity (by decide)]
    -- the greatest single value is far below the range of the double format
    calc single.significand m * 2 ^ (single.exponent m + d)
        < 2 ^ 24 * 2 ^ (254 + d) :=
          Nat.mul_lt_mul_of_lt_of_le hsignificand
            (Nat.pow_le_pow_right (by decide) (Nat.add_le_add_right hexponent d))
            (Nat.two_pow_pos _)
      _ = 2 ^ (24 + (254 + d)) := (Nat.pow_add ..).symm
      _ ≤ 2 ^ (double.fractionBits + (2 ^ double.exponentBits - 1)) :=
          Nat.pow_le_pow_right (by decide) (by rw [← hd]; decide)
      _ = 2 ^ double.fractionBits * 2 ^ (2 ^ double.exponentBits - 1) := Nat.pow_add ..

/-- Back in the single format the value is its magnitude again. -/
theorem round_round_single :
    single.round ((single.value m).1 * 2 ^ (double.scale - single.scale)) (2 ^ double.scale)
      = m := by
  have hscale : double.scale - single.scale + single.scale = double.scale := rfl
  refine single.round_of_value (Nat.two_pow_pos _) hm ?_
  rw [Nat.mul_assoc, ← Nat.pow_add, hscale]

end

/-- A widened value keeps its sign. Its magnitude is that of a number if that of the single value
is, and the value of a finite one stays. -/
theorem exists_magnitude_widen (bits : UInt32) :
    ∃ wide < double.signBit,
      (widen bits).toNat = double.withSign (single.isNegative bits.toNat) wide
        ∧ (wide < double.infinity ↔ single.magnitude bits.toNat < single.infinity)
        ∧ (wide ≤ double.infinity ↔ single.magnitude bits.toNat ≤ single.infinity)
        ∧ (single.magnitude bits.toNat < single.infinity →
            (double.value wide).1 = (single.value (single.magnitude bits.toNat)).1
              * 2 ^ (double.scale - single.scale)) := by
  have htop := double.infinity_lt_signBit
  unfold widen
  generalize single.magnitude bits.toNat = m
  by_cases hfinite : m < single.infinity
  · obtain ⟨hlt, hvalue⟩ := round_single hfinite
    simp only [if_pos hfinite]
    exact ⟨_, Nat.lt_trans hlt htop, toNat_withSign _ (Nat.lt_trans hlt htop),
      iff_of_true hlt hfinite, iff_of_true (Nat.le_of_lt hlt) (Nat.le_of_lt hfinite),
      fun _ => hvalue⟩
  · simp only [if_neg hfinite]
    by_cases hinfinite : m = single.infinity
    · simp only [if_pos hinfinite]
      exact ⟨_, htop, toNat_withSign _ htop, iff_of_false (Nat.lt_irrefl _) hfinite,
        iff_of_true (Nat.le_refl _) (Nat.le_of_eq hinfinite), fun h => absurd h hfinite⟩
    · -- the payload of what is not a number stays below the quiet bit
      have hpayload : double.infinity + 2 ^ 51 + (m - single.infinity) % 2 ^ 22 * 2 ^ 29
          < double.signBit := by
        have hroom : double.signBit = double.infinity + 2 ^ 52 := rfl
        omega
      simp only [if_neg hinfinite]
      exact ⟨_, hpayload, toNat_withSign _ hpayload, iff_of_false (by omega) hfinite,
        iff_of_false (by omega) (by omega), fun h => absurd h hfinite⟩

/-- Widening keeps what is finite and what is not. -/
theorem isFinite_widen (bits : UInt32) :
    double.isFinite (widen bits).toNat = single.isFinite bits.toNat := by
  obtain ⟨wide, hlt, hbits, hiff, -⟩ := exists_magnitude_widen bits
  unfold Format.isFinite
  rw [hbits, double.magnitude_withSign _ hlt]
  exact decide_eq_decide.2 hiff

/-- A finite single value comes back, bit for bit, from the double one that it is widened to. -/
theorem narrow_widen {bits : UInt32} (h : single.isFinite bits.toNat = true) :
    narrow (widen bits) = bits := by
  have hfinite := of_decide_eq_true h
  obtain ⟨wide, hlt, hbits, -, -, hvalue⟩ := exists_magnitude_widen bits
  have hround : single.round (double.value wide).1 (double.value wide).2
      = single.magnitude bits.toNat := by
    rw [hvalue hfinite]
    exact round_round_single hfinite
  unfold narrow
  simp only [hbits, double.magnitude_withSign _ hlt, double.isNegative_withSign _ hlt, hround]
  rw [single.withSign_magnitude bits.toNat_lt, UInt32.ofNat_toNat]

end TableScan.Binary
