import TableScan.Binary.Decimal
import TableScan.Proofs.Binary.Nearest

/-!
# The range of shortest decimals

Decimals are read in two rounded steps (`ofScientific`), and two roundings may take a decimal out of
range that lies in it. Those of the shortest decimals do not: whatever digits are dropped at the end
of the shortest decimal of a finite magnitude, the rest is read as a finite magnitude
(`isSome_ofScientific`).

A shortest decimal lies in the interval that rounds to its magnitude (`roundsFrom`), so up to the
last binade its value is far enough below the range for two roundings. In the last binade the grid
of width `10 ^ 292` is narrower than the spacing of the magnitudes, so no finer grid is ever tried
(`nearestOnGrid_of_narrow`), and a decimal with so great an exponent has few digits. How far the
powers of ten are off is seen for each of them.
-/

namespace TableScan.Binary

/-! ## Dropped digits -/

/-- `d.IsCutTo digits exponent`: digits are dropped at the end of a decimal, and the exponent goes
up by their number. -/
def Decimal.IsCutTo (d : Decimal) (digits : Nat) (exponent : Int) : Prop :=
  ∃ dropped : Nat, digits * 10 ^ dropped ≤ d.digits ∧ exponent = d.exponent + dropped

theorem Decimal.isCutTo_of_stripZeros {n : Nat} {d : Decimal} {a : Nat} {e : Int}
    (h : (d.stripZeros n).IsCutTo a e) : d.IsCutTo a e := by
  induction n generalizing d with
  | zero => exact h
  | succ n ih =>
    unfold stripZeros at h
    split at h
    · obtain ⟨dropped, hle, rfl⟩ := ih h
      -- the zero is one more digit that is dropped
      refine ⟨dropped + 1, ?_, ?_⟩
      · simp only at hle
        rw [Nat.pow_succ, ← Nat.mul_assoc]
        omega
      · simp only
        omega
    · exact h

/-- The value of a decimal is that of its last digit, as many times as the digits say. -/
theorem Decimal.value_eq (e : Int) (n : Nat) : Decimal.value ⟨n, e⟩
    = (n * (Decimal.mk 1 e).value.1, (Decimal.mk 1 e).value.2) := by
  cases e with
  | ofNat k =>
    show (n * 10 ^ k, 1) = (n * (1 * 10 ^ k), 1)
    rw [Nat.one_mul]
  | negSucc k =>
    show (n, 10 ^ (k + 1)) = (n * 1, 10 ^ (k + 1))
    rw [Nat.mul_one]

theorem Decimal.num_pos {d : Decimal} (h : 0 < d.digits) : 0 < d.value.1 := by
  obtain ⟨digits, exponent⟩ := d
  cases exponent with
  | ofNat k => exact Nat.mul_pos h (Nat.pow_pos (by decide))
  | negSucc k => exact h

theorem Decimal.den_pos (d : Decimal) : 0 < d.value.2 := by
  obtain ⟨digits, exponent⟩ := d
  cases exponent with
  | ofNat k => exact Nat.one_pos
  | negSucc k => exact Nat.pow_pos (n := k + 1) (by decide)

namespace Format

variable {f : Format} {m : Nat}

/-- A decimal that rounds to a magnitude is not above the middle between this and the next one, nor
is what is left of the decimal when digits are dropped. -/
theorem two_mul_le_of_roundsFrom {d : Decimal} {a k : Nat} (h : f.roundsFrom m d = true)
    (hcut : d.IsCutTo a k) :
    2 * (a * 10 ^ k) * 2 ^ f.scale ≤ (f.value (m + 1)).1 + (f.value m).1 := by
  have hpoint : 2 * d.value.1 * 2 ^ f.scale
      ≤ ((f.value (m + 1)).1 + (f.value m).1) * d.value.2 := by
    unfold roundsFrom at h
    simp only at h
    split at h
    · exact of_decide_eq_true (Bool.and_eq_true_iff.1 h).2
    · exact Nat.le_of_lt (of_decide_eq_true (Bool.and_eq_true_iff.1 h).2)
  obtain ⟨digits, exponent⟩ := d
  obtain ⟨dropped, hle, hk⟩ := hcut
  simp only at hle hk
  cases exponent with
  | ofNat e =>
    have hpow : a * 10 ^ k ≤ digits * 10 ^ e := by
      obtain rfl : k = dropped + e := by
        have he : (Int.ofNat e) = (e : Int) := rfl
        omega
      rw [Nat.pow_add, ← Nat.mul_assoc]
      exact Nat.mul_le_mul_right _ hle
    have hscaled := Nat.mul_le_mul_right (2 ^ f.scale) (Nat.mul_le_mul_left 2 hpow)
    rw [Decimal.value, Nat.mul_one] at hpoint
    exact Nat.le_trans hscaled hpoint
  | negSucc e =>
    -- the dropped digits are more than those behind the point
    have hpow : a * 10 ^ k * 10 ^ (e + 1) ≤ digits := by
      obtain rfl : dropped = k + (e + 1) := by
        have he := Int.negSucc_eq e
        omega
      rwa [Nat.mul_assoc, ← Nat.pow_add]
    have hscaled := Nat.mul_le_mul_right (2 ^ f.scale) (Nat.mul_le_mul_left 2 hpow)
    have hsplit : 2 * (a * 10 ^ k * 10 ^ (e + 1)) * 2 ^ f.scale
        = 2 * (a * 10 ^ k) * 2 ^ f.scale * 10 ^ (e + 1) := by
      ac_rfl
    rw [Decimal.value] at hpoint
    rw [hsplit] at hscaled
    exact Nat.le_of_mul_le_mul_right (Nat.le_trans hscaled hpoint) (Nat.pow_pos (by decide))

/-- What a grid gives rounds to the magnitude. -/
theorem roundsFrom_of_nearestOnGrid {e : Int} {d : Decimal}
    (h : f.nearestOnGrid m e = some d) : d.exponent = e ∧ f.roundsFrom m d = true := by
  have hfits : ∀ (near far : Nat) (fits : Nat → Bool),
      (∀ n, fits n = true → f.roundsFrom m ⟨n, e⟩ = true) →
      (if fits near then some (Decimal.mk near e) else if fits far then some ⟨far, e⟩ else none)
        = some d → d.exponent = e ∧ f.roundsFrom m d = true := by
    intro near far fits hfits hd
    split at hd
    · next hnear =>
      obtain rfl := Option.some.inj hd
      exact ⟨rfl, hfits near hnear⟩
    · split at hd
      · next hfar =>
        obtain rfl := Option.some.inj hd
        exact ⟨rfl, hfits far hfar⟩
      · cases hd
  exact hfits _ _ (fun n => n != 0 && f.roundsFrom m ⟨n, e⟩)
    (fun n hn => (Bool.and_eq_true_iff.1 hn).2) h

/-- On a grid that is narrower than the spacing of the magnitudes, the nearest point rounds to the
magnitude. -/
theorem nearestOnGrid_of_narrow {e : Int} (hm : 0 < m)
    (h : 2 ^ f.scale * (Decimal.mk 1 e).value.1
      < 2 ^ f.exponent (m - 1) * (Decimal.mk 1 e).value.2) :
    f.nearestOnGrid m e = some ⟨roundToEven ((f.value m).1 * (Decimal.mk 1 e).value.2)
      (2 ^ f.scale * (Decimal.mk 1 e).value.1), e⟩ := by
  have hgrid : ∀ n, Decimal.value ⟨n, e⟩
      = (n * (Decimal.mk 1 e).value.1, (Decimal.mk 1 e).value.2) := Decimal.value_eq e
  have hnum := Decimal.num_pos (d := ⟨1, e⟩) Nat.one_pos
  unfold nearestOnGrid
  simp only
  generalize (Decimal.mk 1 e).value = unit at h hgrid hnum ⊢
  have hwidth : 0 < 2 ^ f.scale * unit.1 := Nat.mul_pos (Nat.two_pow_pos _) hnum
  obtain ⟨hge, hle⟩ := roundToEven_near hwidth ((f.value m).1 * unit.2)
  have hbelow := f.value_succ (m - 1)
  have habove := f.value_succ m
  have hspacing : 2 ^ f.exponent (m - 1) * unit.2 ≤ 2 ^ f.exponent m * unit.2 :=
    Nat.mul_le_mul_right _
      (Nat.pow_le_pow_right (by decide) (f.exponent_mono (Nat.sub_le m 1)))
  rw [Nat.sub_add_cancel hm] at hbelow
  rw [show (f.value m).2 = 2 ^ f.scale from rfl]
  generalize roundToEven ((f.value m).1 * unit.2) (2 ^ f.scale * unit.1) = near at hge hle ⊢
  -- the point is half a grid width away at most, and this is less than half of either spacing
  have hvalue : (f.value m).1 * unit.2
      = (f.value (m - 1)).1 * unit.2 + 2 ^ f.exponent (m - 1) * unit.2 := by
    rw [hbelow, Nat.add_mul]
  -- zero is more than half a width away
  have hne : near ≠ 0 := by
    rintro rfl
    omega
  have hpoint : 2 * (near * unit.1) * 2 ^ f.scale = 2 * (near * (2 ^ f.scale * unit.1)) := by
    ac_rfl
  have hrounds : f.roundsFrom m ⟨near, e⟩ = true := by
    rw [roundsFrom_iff, hgrid]
    show f.IsNear m (near * unit.1) unit.2
    have hlow : ((f.value (m - 1)).1 + (f.value m).1) * unit.2
        < 2 * (near * unit.1) * 2 ^ f.scale := by
      rw [hpoint, Nat.add_mul]
      omega
    have hhigh : 2 * (near * unit.1) * 2 ^ f.scale
        < ((f.value (m + 1)).1 + (f.value m).1) * unit.2 := by
      rw [hpoint, Nat.add_mul, habove, Nat.add_mul]
      omega
    exact ⟨Nat.le_of_lt hlow, Nat.le_of_lt hhigh, fun hmiddle => by omega⟩
  simp [hrounds, hne]

/-- The shortest decimal comes from the first grid that has a point for the magnitude. -/
theorem shortest_eq_stripZeros (m : Nat) :
    ((∀ i < 24, f.nearestOnGrid m (f.coarsestExponent m - (i : Nat)) = none)
      ∧ f.shortest m = ⟨0, 0⟩) ∨ ∃ (i : Nat) (d : Decimal),
      f.nearestOnGrid m (f.coarsestExponent m - i) = some d
        ∧ (∀ j < i, f.nearestOnGrid m (f.coarsestExponent m - j) = none)
        ∧ f.shortest m = d.stripZeros 24 := by
  unfold shortest
  simp only
  cases hfound : (List.range 24).findSome? fun (i : Nat) =>
      f.nearestOnGrid m (f.coarsestExponent m - i) with
  | none =>
    refine .inl ⟨fun i hi => List.findSome?_eq_none_iff.1 hfound i (List.mem_range.2 hi), ?_⟩
    show Decimal.stripZeros 24 ⟨0, 0⟩ = ⟨0, 0⟩
    simp [Decimal.stripZeros]
  | some d =>
    obtain ⟨before, i, behind, hrange, hd, hbefore⟩ := List.findSome?_eq_some_iff.1 hfound
    -- the first grid that gives a point
    refine .inr ⟨i, d, hd, fun j hj => hbefore j ?_, rfl⟩
    -- the grids are tried in order, so the coarser ones stand before
    have hi : i < 24 := List.mem_range.1 (hrange ▸ List.mem_append_right _ List.mem_cons_self)
    have hmem : j ∈ before ++ i :: behind := hrange ▸ List.mem_range.2 (Nat.lt_trans hj hi)
    have hsorted : (before ++ i :: behind).Pairwise (· < ·) := hrange ▸ List.pairwise_lt_range
    obtain ⟨-, hbehind, -⟩ := List.pairwise_append.1 hsorted
    rcases List.mem_append.1 hmem with hmem | hmem
    · exact hmem
    · rcases List.mem_cons.1 hmem with rfl | hmem
      · exact absurd hj (Nat.lt_irrefl _)
      · exact absurd (List.rel_of_pairwise_cons hbehind hmem) (Nat.lt_asymm hj)

end Format

/-! ## Reading what is left -/

/-- The integer of the digits, rounded, is at most by half of a last place too great. -/
theorem value_round_one_le (n : Nat) :
    2 ^ 53 * (double.value (double.round n 1)).1 ≤ (2 ^ 53 + 1) * (n * 2 ^ double.scale) := by
  rcases Nat.eq_zero_or_pos n with rfl | hn
  · rw [Format.round_zero]
    simp [Format.value, Format.significand]
  -- with the scale the integer is behind the first binade
  · have hnormal : 2 ^ (double.fractionBits + 2) * 1 ≤ n * 2 ^ double.scale := by
      rw [Nat.mul_one]
      exact Nat.le_trans (Nat.pow_le_pow_right (by decide) (by decide))
        (Nat.le_mul_of_pos_left _ hn)
    have hle := double.value_round_le Nat.one_pos (double.one_lt_binade Nat.one_pos hnormal)
    rwa [Nat.mul_one] at hle

/-- A decimal in range is read as a finite magnitude if the product with its power of ten is finite;
it has no power above the greatest one. -/
theorem isSome_ofScientific_of_lt {a k : Nat} (hrange : a * 10 ^ k < 10 ^ (maxPower + 1))
    (hroom : k ≤ maxPower →
      double.mul (double.round a 1) (powerOfTen k) < double.infinity) :
    (ofScientific a k).isSome := by
  show (if k ≤ maxPower then _ else _ : Option Nat).isSome
  by_cases hk : k ≤ maxPower
  · rw [if_pos hk, if_pos (hroom hk)]
    rfl
  · -- under so great a power only zero is in range
    obtain rfl : a = 0 := by
      by_contra hne
      have hpowers : 10 ^ (maxPower + 1) ≤ 10 ^ k :=
        Nat.pow_le_pow_right (by decide) (Nat.lt_of_not_le hk)
      have hone := Nat.mul_le_mul_right (10 ^ k) (Nat.one_le_iff_ne_zero.2 hne)
      omega
    rw [if_neg hk, Format.round_zero]
    rfl

/-- The first magnitude of the last binade. -/
def lastBinade : Nat := 2046 * 2 ^ 52

/-- The middle between the first two magnitudes of the last binade. -/
def lastBinadeStart : Nat := (2 ^ 53 + 1) * 2 ^ 970

/-- The middle between the last magnitude and infinity. -/
def rangeEnd : Nat := (2 ^ 54 - 1) * 2 ^ 970

/-- Up to the last binade there is room for both roundings, whatever the power of ten. -/
theorem isSome_ofScientific_of_le {a k : Nat} (h : a * 10 ^ k ≤ lastBinadeStart) :
    (ofScientific a k).isSome := by
  have hrange : lastBinadeStart < 10 ^ (maxPower + 1) := by decide +kernel
  refine isSome_ofScientific_of_lt (Nat.lt_of_le_of_lt h hrange) fun _ => ?_
  have hdigits := value_round_one_le a
  have hpower := value_round_one_le (10 ^ k)
  -- what the exact product of the two rounded factors is at most
  have hproduct : (double.value (double.round a 1)).1 * (double.value (powerOfTen k)).1
      ≤ (2 ^ 53 + 1) * (2 ^ 53 + 1) * lastBinadeStart * (2 ^ double.scale * 2 ^ double.scale)
        / (2 ^ 53 * 2 ^ 53) := by
    rw [Nat.le_div_iff_mul_le (by decide)]
    unfold powerOfTen
    generalize (double.value (double.round a 1)).1 = x at hdigits ⊢
    generalize (double.value (double.round (10 ^ k) 1)).1 = y at hpower ⊢
    generalize 2 ^ double.scale = s at hdigits hpower ⊢
    calc x * y * (2 ^ 53 * 2 ^ 53)
        = 2 ^ 53 * x * (2 ^ 53 * y) := by ac_rfl
      _ ≤ (2 ^ 53 + 1) * (a * s) * ((2 ^ 53 + 1) * (10 ^ k * s)) := Nat.mul_le_mul hdigits hpower
      _ = (2 ^ 53 + 1) * (2 ^ 53 + 1) * (a * 10 ^ k) * (s * s) := by ac_rfl
      _ ≤ (2 ^ 53 + 1) * (2 ^ 53 + 1) * lastBinadeStart * (s * s) :=
          Nat.mul_le_mul_right _ (Nat.mul_le_mul_left _ h)
  have hden : 0 < 2 ^ double.scale * 2 ^ double.scale := by decide +kernel
  have hfinite : double.round
      ((2 ^ 53 + 1) * (2 ^ 53 + 1) * lastBinadeStart * (2 ^ double.scale * 2 ^ double.scale)
        / (2 ^ 53 * 2 ^ 53)) (2 ^ double.scale * 2 ^ double.scale) < double.infinity := by
    decide +kernel
  exact Nat.lt_of_le_of_lt (double.round_mono hden hproduct) hfinite

/-- From the grid of width `10 ^ 293` on, the powers of ten of the last binade are rounded to the
right side. -/
theorem room_rangeEnd : ∀ k ≤ maxPower, 293 ≤ k →
    double.mul (double.round (rangeEnd / 10 ^ k) 1) (powerOfTen k) < double.infinity := by
  decide +kernel

/-- The binary logarithm of a value with a full significand. -/
theorem log2_of_significand {v e : Nat} (hle : 2 ^ 52 * 2 ^ e ≤ v) (hlt : v < 2 ^ 53 * 2 ^ e) :
    Nat.log2 v = 52 + e := by
  have hpos : 0 < 2 ^ 52 * 2 ^ e := Nat.mul_pos (by decide) (Nat.two_pow_pos e)
  rw [Nat.log2_eq_iff (by omega), Nat.add_right_comm, Nat.pow_add, Nat.pow_add]
  exact ⟨hle, hlt⟩

section LastBinade

variable {m : Nat} (hlow : lastBinade ≤ m) (hhigh : m < double.infinity)

include hlow hhigh

/-- The magnitudes of the last binade share its exponent. -/
theorem exponent_of_lastBinade : double.exponent m = 2046 := by
  have hstart : double.exponent lastBinade = 2046 := by decide
  rw [← hstart]
  refine double.exponent_eq_of_lt hlow (Nat.lt_of_lt_of_le hhigh ?_)
  rw [hstart]
  decide

/-- Their values reach from its start to one unit before its end. -/
theorem value_of_lastBinade :
    2 ^ 52 * 2 ^ 2046 ≤ (double.value m).1 ∧ (double.value m).1 + 2 ^ 2046 ≤ 2 ^ 53 * 2 ^ 2046 := by
  have hexponent := exponent_of_lastBinade hlow hhigh
  have hlead := double.le_significand (m := m) (by rw [hexponent]; decide)
  have hsignificand := double.significand_lt m
  have hvalue : (double.value m).1 = double.significand m * 2 ^ double.exponent m := rfl
  rw [hvalue, hexponent]
  generalize 2 ^ 2046 = unit
  rw [← Nat.succ_mul]
  exact ⟨Nat.mul_le_mul_right _ hlead, Nat.mul_le_mul_right _ hsignificand⟩

/-- The grids that are tried for them start with the same one. -/
theorem coarsestExponent_of_lastBinade : double.coarsestExponent m = 312 := by
  obtain ⟨hle, hlt⟩ := value_of_lastBinade hlow hhigh
  have hlog : Nat.log2 (double.value m).1 = 52 + 2046 :=
    log2_of_significand hle
      (Nat.lt_of_lt_of_le (Nat.lt_add_of_pos_right (Nat.two_pow_pos 2046)) hlt)
  have hden : Nat.log2 (double.value m).2 = double.scale := Nat.log2_two_pow
  unfold Format.coarsestExponent
  simp only [hlog, hden]
  decide

end LastBinade

/-- On the grid of width `10 ^ 292` the nearest point rounds to the magnitude, and it has no more
digits than the greatest magnitude has there. -/
theorem nearestOnGrid_of_lastBinade {m : Nat} (hhigh : m < double.infinity)
    (hfirst : lastBinade < m) :
    ∃ near ≤ 17976931348623157, double.nearestOnGrid m (292 : Nat) = some ⟨near, (292 : Nat)⟩ := by
  have hbefore : double.exponent (m - 1) = 2046 :=
    exponent_of_lastBinade (Nat.le_sub_one_of_lt hfirst) (Nat.lt_of_le_of_lt (Nat.sub_le m 1) hhigh)
  have hunit : (Decimal.mk 1 (292 : Nat)).value = (10 ^ 292, 1) := by decide +kernel
  have hnarrow : 2 ^ double.scale * (Decimal.mk 1 (292 : Nat)).value.1
      < 2 ^ double.exponent (m - 1) * (Decimal.mk 1 (292 : Nat)).value.2 := by
    rw [hbefore]
    decide +kernel
  refine ⟨_, ?_, Format.nearestOnGrid_of_narrow (Nat.zero_lt_of_lt hfirst) hnarrow⟩
  simp only [hunit, Nat.mul_one]
  have hlast : Format.roundToEven (double.value (double.infinity - 1)).1
      (2 ^ double.scale * 10 ^ 292) = 17976931348623157 := by
    decide +kernel
  rw [← hlast]
  exact Format.roundToEven_mono (by decide +kernel) (double.value_mono (Nat.le_sub_one_of_lt hhigh))

/-- In the last binade no grid narrower than `10 ^ 292` is tried. -/
theorem shortest_of_lastBinade {m : Nat} (hhigh : m < double.infinity) (hfirst : lastBinade < m) :
    double.shortest m = ⟨0, 0⟩ ∨ ∃ d : Decimal, double.roundsFrom m d = true
      ∧ (d.exponent = 292 ∧ d.digits ≤ 17976931348623157 ∨ 293 ≤ d.exponent)
      ∧ double.shortest m = d.stripZeros 24 := by
  obtain ⟨near, hnear, hgrid⟩ := nearestOnGrid_of_lastBinade hhigh hfirst
  have hcoarsest := coarsestExponent_of_lastBinade (Nat.le_of_lt hfirst) hhigh
  rcases double.shortest_eq_stripZeros m with ⟨-, hzero⟩ | ⟨i, d, hd, hbefore, hshortest⟩
  · exact .inl hzero
  · rw [hcoarsest] at hd hbefore
    obtain ⟨hexp, hrounds⟩ := Format.roundsFrom_of_nearestOnGrid hd
    refine .inr ⟨d, hrounds, ?_, hshortest⟩
    rcases Nat.lt_trichotomy i 20 with hlt | rfl | hgt
    · right
      omega
    · left
      obtain rfl := Option.some.inj (hgrid.symm.trans hd)
      exact ⟨rfl, hnear⟩
    · cases hgrid.symm.trans (hbefore 20 hgt)

/-- What is left of a decimal that rounds to a magnitude is not above the middle behind a greater
one. -/
theorem mul_pow_le_of_roundsFrom {m n : Nat} {d : Decimal} {a k bound : Nat}
    (h : double.roundsFrom m d = true) (hcut : d.IsCutTo a k) (hle : m ≤ n)
    (hbound : (double.value (n + 1)).1 + (double.value n).1 = bound * (2 * 2 ^ double.scale)) :
    a * 10 ^ k ≤ bound := by
  have hmiddle := Format.two_mul_le_of_roundsFrom h hcut
  have hgreater := Nat.add_le_add (double.value_mono (Nat.succ_le_succ hle)) (double.value_mono hle)
  rw [hbound] at hgreater
  have hpos := Nat.two_pow_pos double.scale
  generalize 2 ^ double.scale = s at hmiddle hgreater hpos
  refine Nat.le_of_mul_le_mul_right (c := 2 * s) ?_ (Nat.mul_pos (by decide) hpos)
  calc a * 10 ^ k * (2 * s) = 2 * (a * 10 ^ k) * s := by ac_rfl
    _ ≤ bound * (2 * s) := Nat.le_trans hmiddle hgreater

/-- What is left of the shortest decimal of a finite magnitude, when digits at its end are dropped,
is read as a finite magnitude. -/
theorem isSome_ofScientific {m : Nat} (hm : m < double.infinity) {a : Nat} {e : Int}
    (hcut : (double.shortest m).IsCutTo a e) : (ofScientific a e).isSome := by
  cases e with
  | negSucc k => rfl
  | ofNat k =>
    have hnone : double.shortest m = ⟨0, 0⟩ → (ofScientific a k).isSome := by
      intro hzero
      rw [hzero] at hcut
      obtain ⟨dropped, hle, -⟩ := hcut
      obtain rfl : a = 0 := by
        by_contra hne
        exact absurd hle (Nat.not_le_of_gt
          (Nat.mul_pos (Nat.pos_of_ne_zero hne) (Nat.pow_pos (by decide))))
      exact isSome_ofScientific_of_le (by simp)
    -- up to the last binade there is room for any power, in the last one the grid decides
    by_cases hlow : m ≤ lastBinade
    · rcases double.shortest_eq_stripZeros m with ⟨-, hzero⟩ | ⟨i, d, hd, -, hshortest⟩
      · exact hnone hzero
      · rw [hshortest] at hcut
        exact isSome_ofScientific_of_le (mul_pow_le_of_roundsFrom
          (Format.roundsFrom_of_nearestOnGrid hd).2 (Decimal.isCutTo_of_stripZeros hcut) hlow
          (by decide +kernel))
    · have hfirst := Nat.lt_of_not_le hlow
      rcases shortest_of_lastBinade hm hfirst with
        hzero | ⟨d, hrounds, hgrid, hshortest⟩
      · exact hnone hzero
      · rw [hshortest] at hcut
        have hcut := Decimal.isCutTo_of_stripZeros hcut
        have hle : a * 10 ^ k ≤ rangeEnd := mul_pow_le_of_roundsFrom hrounds hcut
          (Nat.le_sub_one_of_lt hm) (by decide +kernel)
        refine isSome_ofScientific_of_lt (Nat.lt_of_le_of_lt hle (by decide +kernel)) fun hk => ?_
        obtain ⟨dropped, hdigits, hexp⟩ := hcut
        have hexp : (k : Int) = d.exponent + dropped := hexp
        -- great powers are seen one by one, the others occur on the narrowest grid only
        by_cases hgreat : 293 ≤ k
        · have ha : a ≤ rangeEnd / 10 ^ k :=
            (Nat.le_div_iff_mul_le (Nat.pow_pos (by decide))).2 hle
          exact Nat.lt_of_le_of_lt (double.mul_mono_left (double.round_mono Nat.one_pos ha) _)
            (room_rangeEnd k hk hgreat)
        · -- all digits of a decimal on the narrowest grid are left
          obtain ⟨rfl, rfl, hd⟩ :
              dropped = 0 ∧ k = 292 ∧ d.digits ≤ 17976931348623157 := by
            rcases hgrid with ⟨hgrid, hd⟩ | hgrid
            · exact ⟨by omega, by omega, hd⟩
            · omega
          rw [Nat.pow_zero, Nat.mul_one] at hdigits
          have ha := Nat.le_trans hdigits hd
          exact Nat.lt_of_le_of_lt (double.mul_mono_left (double.round_mono Nat.one_pos ha) _)
            (by decide +kernel)

end TableScan.Binary
