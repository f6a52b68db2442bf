import TableScan.Binary.Decimal
import TableScan.Proofs.Binary.Widening

/-!
# Correct rounding

A quotient is rounded to the magnitude that it is nearest to. Between two magnitudes the middle
decides, and the middle itself belongs to the even one of them (`Format.IsNear`).

Main statement: below infinity a quotient is rounded to a magnitude just when it is near to it
(`Format.round_eq_iff`). The shortest decimal of a magnitude is looked for among the same quotients
(`Format.roundsFrom_iff`).
-/

namespace TableScan.Binary.Format

/-- Between two integers the even one is taken where a quotient is in the middle. -/
theorem roundToEven_middle {num den k : Nat} (hden : 0 < den) (h : 2 * num = (2 * k + 1) * den) :
    roundToEven num den % 2 = 0 := by
  have hsplit : (2 * k + 1) * den = 2 * (k * den) + den := by
    rw [Nat.add_mul, Nat.one_mul, Nat.mul_assoc]
  have hdiv : num / den = k := by
    refine Nat.div_eq_of_lt_le (by omega) ?_
    rw [Nat.succ_mul]
    omega
  -- the remainder is exactly half of the unit
  have hmod : 2 * (num % den) = den := by
    have hsum := Nat.div_add_mod num den
    rw [hdiv, Nat.mul_comm] at hsum
    omega
  unfold roundToEven
  simp only [hdiv, hmod, Nat.lt_irrefl, decide_false, Bool.false_or, beq_self_eq_true,
    Bool.true_and, gt_iff_lt]
  split
  · next hodd =>
    have hodd := beq_iff_eq.1 hodd
    omega
  · next heven =>
    have heven := mt beq_iff_eq.2 heven
    omega

variable (f : Format)

/-- Holds of the quotients from the middle below a magnitude up to the one above it, of which only
those of an even magnitude belong to it. -/
structure IsNear (m num den : Nat) : Prop where
  below : ((f.value (m - 1)).1 + (f.value m).1) * den ≤ 2 * num * 2 ^ f.scale
  above : 2 * num * 2 ^ f.scale ≤ ((f.value (m + 1)).1 + (f.value m).1) * den
  even : ((f.value (m - 1)).1 + (f.value m).1) * den = 2 * num * 2 ^ f.scale
    ∨ 2 * num * 2 ^ f.scale = ((f.value (m + 1)).1 + (f.value m).1) * den → m % 2 = 0

variable {f} {m n num den : Nat}

/-- A decimal is taken for a magnitude where it is near to it. -/
theorem roundsFrom_iff {d : Decimal} :
    f.roundsFrom m d = true ↔ f.IsNear m d.value.1 d.value.2 := by
  unfold roundsFrom
  simp only [show (f.value m).2 = 2 ^ f.scale from rfl]
  split
  · next heven =>
    rw [Bool.and_eq_true, decide_eq_true_eq, decide_eq_true_eq]
    exact ⟨fun ⟨hbelow, habove⟩ => ⟨hbelow, habove, fun _ => heven⟩,
      fun h => ⟨h.below, h.above⟩⟩
  · next hodd =>
    rw [Bool.and_eq_true, decide_eq_true_eq, decide_eq_true_eq]
    constructor
    · rintro ⟨hbelow, habove⟩
      exact ⟨Nat.le_of_lt hbelow, Nat.le_of_lt habove, fun hmiddle => by omega⟩
    · intro h
      exact ⟨Nat.lt_of_le_of_ne h.below fun heq => hodd (h.even (.inl heq)),
        Nat.lt_of_le_of_ne h.above fun heq => hodd (h.even (.inr heq))⟩

/-- A quotient is not near to a greater magnitude too. -/
theorem IsNear.not_lt (hden : 0 < den) (hm : f.IsNear m num den) (hn : f.IsNear n num den) :
    ¬ m < n := by
  intro hlt
  have hlow : (f.value m).1 ≤ (f.value (n - 1)).1 := f.value_mono (Nat.le_sub_one_of_lt hlt)
  have hhigh : (f.value (m + 1)).1 ≤ (f.value n).1 := f.value_mono hlt
  have hle : ((f.value (m + 1)).1 + (f.value m).1) * den
      ≤ ((f.value (n - 1)).1 + (f.value n).1) * den := Nat.mul_le_mul_right _ (by omega)
  have habove := hm.above
  have hbelow := hn.below
  -- both would be even, and next to each other
  have heq : ((f.value (m + 1)).1 + (f.value m).1) * den
      = ((f.value (n - 1)).1 + (f.value n).1) * den := by omega
  have hvalues := Nat.eq_of_mul_eq_mul_right hden heq
  have hnext : m + 1 = n := f.value_strictMono.injective (by
    show (f.value (m + 1)).1 = (f.value n).1
    omega)
  have heven := hm.even (.inr (by omega))
  have heven' := hn.even (.inl (by omega))
  omega

/-- So it is near to one magnitude at most. -/
theorem IsNear.unique (hden : 0 < den) (hm : f.IsNear m num den) (hn : f.IsNear n num den) :
    m = n :=
  Nat.le_antisymm (Nat.le_of_not_lt (hn.not_lt hden hm)) (Nat.le_of_not_lt (hm.not_lt hden hn))

/-- What is near to a magnitude does not depend on how a quotient is written. -/
theorem isNear_expand_iff {c : Nat} (hc : 0 < c) :
    f.IsNear m (num * c) (den * c) ↔ f.IsNear m num den := by
  have hpoint : 2 * (num * c) * 2 ^ f.scale = 2 * num * 2 ^ f.scale * c := by ac_rfl
  have hle : ∀ {x y : Nat}, x * c ≤ y * c ↔ x ≤ y := Nat.mul_le_mul_right_iff hc
  have heq : ∀ {x y : Nat}, x * c = y * c ↔ x = y := Nat.mul_left_inj (Nat.ne_of_gt hc)
  constructor
  · rintro ⟨hbelow, habove, heven⟩
    rw [hpoint, ← Nat.mul_assoc, hle] at hbelow habove
    rw [hpoint, ← Nat.mul_assoc, ← Nat.mul_assoc, heq, heq] at heven
    exact ⟨hbelow, habove, heven⟩
  · rintro ⟨hbelow, habove, heven⟩
    constructor
    · rwa [hpoint, ← Nat.mul_assoc, hle]
    · rwa [hpoint, ← Nat.mul_assoc, hle]
    · rwa [hpoint, ← Nat.mul_assoc, ← Nat.mul_assoc, heq, heq]

/-- What is near to a magnitude depends on the value of the quotient only. -/
theorem IsNear.of_mul_eq {num' den' : Nat} (h : f.IsNear m num den) (hden : 0 < den)
    (hden' : 0 < den') (heq : num * den' = num' * den) : f.IsNear m num' den' := by
  refine (isNear_expand_iff hden).1 ?_
  rw [← heq, Nat.mul_comm den']
  exact (isNear_expand_iff hden').2 h

section Binade

/-! An integer number of units of a binade, at most half a unit away from a quotient. -/

variable {x e q : Nat} (he : 1 ≤ e) (hfits : q ≤ 2 * 2 ^ f.fractionBits)
  (hlead : e = 1 ∨ 2 ^ f.fractionBits ≤ q)
  (heven : ∀ k, 2 * x = (2 * k + 1) * (den * 2 ^ e) → q % 2 = 0)

include he hfits hlead heven

/-- The quotient is not below the middle before, and even where it is the middle. -/
theorem below_of_unit (hden : 0 < den)
    (hlow : 1 < e → 2 ^ f.fractionBits * (den * 2 ^ e) ≤ x)
    (hnear : 2 * (q * (den * 2 ^ e)) ≤ 2 * x + den * 2 ^ e) :
    ((f.value ((e - 1) * 2 ^ f.fractionBits + q - 1)).1
        + (f.value ((e - 1) * 2 ^ f.fractionBits + q)).1) * den ≤ 2 * x
      ∧ (((f.value ((e - 1) * 2 ^ f.fractionBits + q - 1)).1
        + (f.value ((e - 1) * 2 ^ f.fractionBits + q)).1) * den = 2 * x → q % 2 = 0) := by
  have hpos := Nat.two_pow_pos f.fractionBits
  have hvalue : (f.value ((e - 1) * 2 ^ f.fractionBits + q)).1 * den = q * (den * 2 ^ e) := by
    rw [f.value_of_significand he hfits hlead]
    ac_rfl
  rw [Nat.add_mul, hvalue]
  rcases Nat.eq_zero_or_pos q with rfl | hq
  · -- zero is its own predecessor
    obtain rfl : e = 1 := by omega
    have hzero : (f.value 0).1 * den = 0 := by simpa using hvalue
    simp [hzero]
  -- the predecessor is one unit below, unless the binade starts here
  · by_cases hbinade : e = 1 ∨ 2 ^ f.fractionBits ≤ q - 1
    · have hbefore : (f.value ((e - 1) * 2 ^ f.fractionBits + q - 1)).1 * den
          = (q - 1) * (den * 2 ^ e) := by
        rw [Nat.add_sub_assoc hq, f.value_of_significand he (by omega) hbinade]
        ac_rfl
      obtain ⟨k, rfl⟩ := Nat.exists_eq_add_of_le' hq
      rw [hbefore, Nat.add_sub_cancel]
      rw [Nat.add_mul, Nat.one_mul] at hnear ⊢
      refine ⟨by omega, fun hmiddle => heven k ?_⟩
      rw [Nat.add_mul, Nat.one_mul, Nat.mul_assoc]
      omega
    · -- the predecessor is in the binade before, and the quotient is not
      obtain rfl : q = 2 ^ f.fractionBits := by omega
      have hle := hlow (by omega)
      have hbefore : (f.value ((e - 1) * 2 ^ f.fractionBits + 2 ^ f.fractionBits - 1)).1 * den
          < 2 ^ f.fractionBits * (den * 2 ^ e) := by
        rw [← hvalue]
        exact Nat.mul_lt_mul_of_pos_right (f.value_strictMono (by omega)) hden
      exact ⟨by omega, fun hmiddle => by omega⟩

/-- It is not above the middle behind, and even where it is the middle. -/
theorem above_of_unit (hnear : 2 * x ≤ 2 * (q * (den * 2 ^ e)) + den * 2 ^ e) :
    2 * x ≤ ((f.value ((e - 1) * 2 ^ f.fractionBits + q + 1)).1
        + (f.value ((e - 1) * 2 ^ f.fractionBits + q)).1) * den
      ∧ (2 * x = ((f.value ((e - 1) * 2 ^ f.fractionBits + q + 1)).1
        + (f.value ((e - 1) * 2 ^ f.fractionBits + q)).1) * den → q % 2 = 0) := by
  have hpos := Nat.two_pow_pos f.fractionBits
  have hvalue : (f.value ((e - 1) * 2 ^ f.fractionBits + q)).1 * den = q * (den * 2 ^ e) := by
    rw [f.value_of_significand he hfits hlead]
    ac_rfl
  -- behind the end of the binade the units are greater
  have hexponent : e ≤ f.exponent ((e - 1) * 2 ^ f.fractionBits + q) := by
    rcases hlead with rfl | hlead
    · exact f.one_le_exponent _
    · refine Nat.le_trans ?_ (Nat.le_max_right _ _)
      rw [Nat.le_div_iff_mul_le hpos]
      obtain ⟨k, rfl⟩ := Nat.exists_eq_add_of_le' he
      rw [Nat.add_sub_cancel, Nat.add_mul, Nat.one_mul]
      omega
  have hunit : den * 2 ^ e ≤ 2 ^ f.exponent ((e - 1) * 2 ^ f.fractionBits + q) * den := by
    rw [Nat.mul_comm]
    exact Nat.mul_le_mul_right _ (Nat.pow_le_pow_right (by decide) hexponent)
  rw [f.value_succ, Nat.add_mul, Nat.add_mul, hvalue]
  -- half a unit above is no more than half of what follows
  refine ⟨by omega, fun hmiddle => heven q ?_⟩
  rw [Nat.add_mul, Nat.one_mul, Nat.mul_assoc]
  omega

end Binade

/-- A quotient is near to the magnitude that is put together when it is rounded, infinity apart. -/
theorem isNear_binade (hfraction : 0 < f.fractionBits) (hden : 0 < den) (num : Nat) :
    f.IsNear ((f.binade (num * 2 ^ f.scale) den - 1) * 2 ^ f.fractionBits
      + roundToEven (num * 2 ^ f.scale) (den * 2 ^ f.binade (num * 2 ^ f.scale) den)) num den := by
  have hpoint : 2 * num * 2 ^ f.scale = 2 * (num * 2 ^ f.scale) := Nat.mul_assoc _ _ _
  generalize hx : num * 2 ^ f.scale = x at hpoint ⊢
  have hone : 1 ≤ f.binade x den := Nat.le_max_left _ _
  have hhigh := Nat.le_of_lt (f.lt_binade hden x)
  have hlow := f.binade_le hden x
  generalize f.binade x den = e at hone hhigh hlow ⊢
  have hunit : 0 < den * 2 ^ e := Nat.mul_pos hden (Nat.two_pow_pos e)
  obtain ⟨hge, hle⟩ := roundToEven_near hunit x
  have heven : ∀ k, 2 * x = (2 * k + 1) * (den * 2 ^ e) →
      roundToEven x (den * 2 ^ e) % 2 = 0 := fun k => roundToEven_middle hunit
  -- the end of the binade is rounded to itself, so nothing before it is rounded beyond
  have hfits := roundToEven_mono hunit hhigh
  rw [roundToEven_mul_self hunit] at hfits
  have hlead : e = 1 ∨ 2 ^ f.fractionBits ≤ roundToEven x (den * 2 ^ e) := by
    rcases Nat.eq_or_lt_of_le hone with heq | hlt
    · exact .inl heq.symm
    · have hle := roundToEven_mono hunit (hlow hlt)
      rw [roundToEven_mul_self hunit] at hle
      exact .inr hle
  generalize roundToEven x (den * 2 ^ e) = q at hge hle heven hfits hlead ⊢
  obtain ⟨hbelow, hbelowEven⟩ := below_of_unit hone hfits hlead heven hden hlow hle
  obtain ⟨habove, haboveEven⟩ := above_of_unit hone hfits hlead heven hge
  -- the binades before are an even number of magnitudes
  have hparity : ((e - 1) * 2 ^ f.fractionBits + q) % 2 = q % 2 := by
    obtain ⟨k, hk⟩ := Nat.exists_eq_add_of_le' hfraction
    rw [hk, Nat.pow_succ, ← Nat.mul_assoc]
    exact Nat.mul_add_mod_self_right _ _ _
  rw [← hpoint] at hbelow hbelowEven habove haboveEven
  exact ⟨hbelow, habove, fun h => hparity.trans (h.elim hbelowEven haboveEven)⟩

/-- Rounding gives the magnitude that a quotient is near to, or infinity where that is smaller. -/
theorem exists_isNear (hfraction : 0 < f.fractionBits) (hden : 0 < den) (num : Nat) :
    ∃ m, f.IsNear m num den ∧ f.round num den = min f.infinity m :=
  ⟨_, isNear_binade hfraction hden num, round_eq_binade f num den⟩

/-- Below infinity a quotient is rounded to a magnitude just when it is near to it. -/
theorem round_eq_iff (hfraction : 0 < f.fractionBits) (hden : 0 < den) (hm : m < f.infinity) :
    f.round num den = m ↔ f.IsNear m num den := by
  obtain ⟨n, hn, hround⟩ := exists_isNear hfraction hden num
  rw [hround]
  constructor
  · intro h
    -- a result below infinity is not the bound
    rcases Nat.le_total f.infinity n with hle | hle
    · rw [Nat.min_eq_left hle] at h
      omega
    · rw [Nat.min_eq_right hle] at h
      exact h ▸ hn
  · intro h
    rw [hn.unique hden h]
    exact Nat.min_eq_right (Nat.le_of_lt hm)

end TableScan.Binary.Format
