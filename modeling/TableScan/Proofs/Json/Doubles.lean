import TableScan.Proofs.Binary.Reading
import TableScan.Proofs.Binary.Shortest
import TableScan.Proofs.Json.Readable

/-!
# Doubles that are written and read

The text of a finite double spells a decimal (`written`), which is near to the double and has few
enough digits that all of them are read. But reading rounds more than once, so the double that comes
back may be another one.

Main statements: it has the same sign and is no more than seven units in the last place apart
(`exists_isReread`), and is the same one just where reading the decimal gives its magnitude
(`IsReread.eq_iff`). That is so for decimals that need no rounding (`IsReread.eq_of_few`), and a
finite single value comes back always (`IsReread.narrow_eq`).
-/

namespace TableScan.Json

open Binary (Decimal double single ofScientific)
open Syntax (natOfDigits digitValue natOfDigits_toDigits natOfDigits_lt digitValue_lt
  isDigit_toDigits)

/-! ## Numerals of few digits -/

namespace Numeral

theorem natOfDigits_append (digits more : List Nat) :
    natOfDigits (digits ++ more)
      = more.foldl (fun n d => n * 10 + d) (natOfDigits digits) :=
  List.foldl_append

/-- A numeral with a fraction or an exponent is read by all of its digits, as long as these fit a
word. -/
theorem toNumber?_of_lt (negative : Bool) {integer fraction : List Nat} {exponent : Option Int}
    (hdouble : fraction ≠ [] ∨ exponent.isSome)
    (hfits : natOfDigits (integer ++ fraction) < wordBound) :
    (Numeral.mk negative integer fraction exponent).toNumber?
      = (ofScientific (natOfDigits (integer ++ fraction))
          (exponent.getD 0 - fraction.length)).map
        fun m => .double (UInt64.ofNat (double.withSign negative m)) := by
  rw [natOfDigits_append] at hfits ⊢
  -- the digits in front of the point are no more than all digits together
  have hinteger : natOfDigits integer < wordBound := by
    have hpower : 1 ≤ 10 ^ fraction.length := Nat.pow_pos (by decide)
    have hle := Nat.le_trans (Nat.le_mul_of_pos_right _ hpower)
      (mul_pow_le_foldl (natOfDigits integer) fraction)
    exact Nat.lt_of_le_of_lt hle hfits
  have hwhole : extend 0 integer = (natOfDigits integer, []) := extend_of_lt hinteger
  have hall := extend_of_lt hfits
  -- it is not read as an integer
  have hcond : (fraction.isEmpty && exponent.isNone && ([] : List Nat).isEmpty) = false := by
    rcases hdouble with hne | hsome
    · rw [List.isEmpty_eq_false_iff.2 hne]
      rfl
    · obtain ⟨e, rfl⟩ := Option.isSome_iff_exists.1 hsome
      simp
  have hexponent : (0 : Int) - fraction.length + exponent.getD 0
      = exponent.getD 0 - fraction.length := by omega
  unfold toNumber? toDouble?
  simp only [hwhole, hall, hcond, Bool.false_eq_true, if_false, List.length_nil, Nat.sub_zero,
    Int.natCast_zero, hexponent]

end Numeral

/-! ## Spelled decimals -/

namespace Spelling

/-- The decimal that a number spells, with the digits on both sides of the point as one integer. -/
def decimal (s : Spelling) : Decimal :=
  ⟨natOfDigits ((s.integer ++ s.fraction).map digitValue),
    (exponentValue s.exponent).getD 0 - s.fraction.length⟩

theorem natOfDigits_zeros_append (n : Nat) (digits : List Char) :
    natOfDigits ((List.replicate n '0' ++ digits).map digitValue)
      = natOfDigits (digits.map digitValue) := by
  induction n with
  | zero => rfl
  | succ n ih => exact ih

theorem natOfDigits_append_zeros (digits : List Char) (n : Nat) :
    natOfDigits ((digits ++ List.replicate n '0').map digitValue)
      = natOfDigits (digits.map digitValue) * 10 ^ n := by
  induction n with
  | zero => rw [List.replicate_zero, List.append_nil, Nat.pow_zero, Nat.mul_one]
  | succ n ih =>
    rw [List.replicate_succ', ← List.append_assoc, List.map_append, Numeral.natOfDigits_append, ih,
      Nat.pow_succ, ← Nat.mul_assoc]
    rfl

/-- Digits without an exponent part spell themselves if the point stands in front of the last
one. -/
theorem decimal_positional_of_lt (negative : Bool) {digits : List Char} {point : Int}
    (h : point < digits.length) :
    (positional negative digits point).decimal
      = ⟨natOfDigits (digits.map digitValue), point - digits.length⟩ := by
  unfold positional decimal
  split
  -- the point stands in front of all digits, and zeros between
  · next hpoint =>
    have hzeros := natOfDigits_zeros_append ((-point).toNat + 1) digits
    rw [List.replicate_succ, List.cons_append] at hzeros
    refine (Decimal.mk.injEq ..).mpr ⟨hzeros, ?_⟩
    show (0 : Int) - (List.replicate (-point).toNat '0' ++ digits).length = _
    rw [List.length_append, List.length_replicate]
    omega
  · next hpoint =>
    -- no zeros are needed, and some digit is left behind the point
    have hzeros : point.toNat - digits.length = 0 := by omega
    have hfraction : (digits.drop point.toNat).isEmpty = false := by
      rw [List.isEmpty_eq_false_iff, ne_eq, List.drop_eq_nil_iff]
      omega
    simp only [hzeros, hfraction, List.replicate_zero, List.append_nil, Bool.false_eq_true,
      if_false, List.take_append_drop, List.length_drop]
    refine (Decimal.mk.injEq ..).mpr ⟨rfl, ?_⟩
    show (0 : Int) - (digits.length - point.toNat : Nat) = _
    omega

/-- Behind the last digit zeros are added up to the point, and one behind it. -/
theorem decimal_positional_of_le (negative : Bool) {digits : List Char} {k : Nat}
    (hne : digits ≠ []) :
    (positional negative digits (digits.length + k : Nat)).decimal
      = ⟨natOfDigits (digits.map digitValue) * 10 ^ (k + 1), -1⟩ := by
  have hlength := List.length_pos_of_ne_nil hne
  have hpoint : ¬ ((digits.length + k : Nat) : Int) ≤ 0 := by omega
  have hdrop : digits.drop (digits.length + k) = [] :=
    List.drop_eq_nil_of_le (Nat.le_add_right _ k)
  have htake : digits.take (digits.length + k) = digits :=
    List.take_of_length_le (Nat.le_add_right _ k)
  unfold positional
  rw [if_neg hpoint]
  simp only [Int.toNat_natCast, Nat.add_sub_cancel_left, hdrop, htake, List.isEmpty_nil, if_true]
  unfold decimal
  -- the zeros up to the point and the one behind it, all as one run
  have hzeros := natOfDigits_append_zeros digits (k + 1)
  rw [List.replicate_succ', ← List.append_assoc] at hzeros
  exact (Decimal.mk.injEq ..).mpr ⟨hzeros, rfl⟩

theorem decimal_scientific (negative : Bool) {digits : List Char} (hne : digits ≠ [])
    (e : Int) : (scientific negative digits (e + digits.length - 1)).decimal
      = ⟨natOfDigits (digits.map digitValue), e⟩ := by
  obtain ⟨c, rest, rfl⟩ := List.exists_cons_of_ne_nil hne
  unfold scientific decimal
  rw [exponentValue_toDigits]
  refine (Decimal.mk.injEq ..).mpr ⟨rfl, ?_⟩
  show e + ((rest.length + 1 : Nat) : Int) - 1 - rest.length = e
  omega

/-- What a number with a fraction or an exponent is read as. -/
theorem toNumber?_numeral {s : Spelling} (hdouble : s.fraction ≠ [] ∨ s.exponent.isSome)
    (hfits : s.decimal.digits < wordBound) :
    s.numeral.toNumber? = (ofScientific s.decimal.digits s.decimal.exponent).map
      fun m => .double (UInt64.ofNat (double.withSign s.negative m)) := by
  obtain ⟨negative, integer, fraction, exponent⟩ := s
  have hdouble : fraction.map digitValue ≠ [] ∨ (exponentValue exponent).isSome := by
    refine hdouble.imp (mt List.map_eq_nil_iff.1) fun hsome => ?_
    obtain ⟨e, rfl⟩ := Option.isSome_iff_exists.1 hsome
    rfl
  unfold decimal at hfits ⊢
  simp only [List.map_append] at hfits ⊢
  have hread := Numeral.toNumber?_of_lt negative hdouble hfits
  rw [List.length_map] at hread
  exact hread

/-! ## Written magnitudes -/

theorem fraction_positional_ne_nil (negative : Bool) {digits : List Char} (hne : digits ≠ [])
    (point : Int) : (positional negative digits point).fraction ≠ [] := by
  unfold positional
  split
  · exact fun h => hne (List.append_eq_nil_iff.1 h).2
  · show (if (digits.drop point.toNat).isEmpty then ['0'] else digits.drop point.toNat) ≠ []
    split
    · exact List.cons_ne_nil _ _
    · next hdrop => exact fun h => hdrop (List.isEmpty_iff.2 h)

/-- A magnitude other than zero is written by the digits of its shortest decimal: positional up to
sixteen digits in front of the point, or in scientific form. -/
theorem ofMagnitude_cases (negative : Bool) {m : Nat} (hne : m ≠ 0) :
    ∃ d digits, d = double.shortest m ∧ digits = Nat.toDigits 10 d.digits
      ∧ (d.exponent + digits.length ≤ 16
          ∧ ofMagnitude negative m = .positional negative digits (d.exponent + digits.length)
        ∨ ofMagnitude negative m
          = .scientific negative digits (d.exponent + digits.length - 1)) := by
  refine ⟨_, _, rfl, rfl, ?_⟩
  unfold ofMagnitude
  rw [if_neg hne]
  generalize double.shortest m = d
  simp only
  by_cases hplain : (decide (plainExponents.1 ≤ d.exponent + (Nat.toDigits 10 d.digits).length - 1)
      && decide (d.exponent + (Nat.toDigits 10 d.digits).length - 1 ≤ plainExponents.2)) = true
  -- the bound of the plain form, for an exponent that is one less than the point
  · have hgreatest : d.exponent + (Nat.toDigits 10 d.digits).length - 1 ≤ 15 :=
      of_decide_eq_true (Bool.and_eq_true_iff.1 hplain).2
    rw [if_pos hplain, Int.sub_add_cancel]
    exact .inl ⟨by omega, rfl⟩
  · rw [if_neg hplain]
    exact .inr rfl

theorem negative_positional (negative : Bool) (digits : List Char) (point : Int) :
    (positional negative digits point).negative = negative := by
  unfold positional
  split
  · rfl
  · rfl

theorem negative_ofMagnitude (negative : Bool) (m : Nat) :
    (ofMagnitude negative m).negative = negative := by
  rcases Nat.eq_zero_or_pos m with rfl | hpos
  · rfl
  · obtain ⟨d, digits, -, -, ⟨-, heq⟩ | heq⟩ := ofMagnitude_cases negative (Nat.ne_of_gt hpos)
    · rw [heq, negative_positional]
    · rw [heq]
      rfl

/-- Magnitudes are written with a fraction or an exponent. -/
theorem double_ofMagnitude (negative : Bool) (m : Nat) :
    (ofMagnitude negative m).fraction ≠ [] ∨ (ofMagnitude negative m).exponent.isSome := by
  rcases Nat.eq_zero_or_pos m with rfl | hpos
  · exact .inl (List.cons_ne_nil _ _)
  · obtain ⟨d, digits, -, hdigits, ⟨-, heq⟩ | heq⟩ :=
      ofMagnitude_cases negative (Nat.ne_of_gt hpos)
    · rw [heq]
      exact .inl (fraction_positional_ne_nil negative (hdigits ▸ Nat.toDigits_ne_nil) _)
    · rw [heq]
      exact .inr rfl

/-- Positional or not, a magnitude is written as its shortest decimal, but for the zeros in front of
the point and the one behind it if there are no other digits. -/
theorem decimal_ofMagnitude (negative : Bool) {m : Nat} (hne : m ≠ 0) :
    (ofMagnitude negative m).decimal = double.shortest m
      ∨ ∃ k, (double.shortest m).exponent = (k : Nat)
        ∧ (Nat.toDigits 10 (double.shortest m).digits).length + k ≤ 16
        ∧ (ofMagnitude negative m).decimal
          = ⟨(double.shortest m).digits * 10 ^ (k + 1), -1⟩ := by
  obtain ⟨d, digits, hd, hdigits, hcases⟩ := ofMagnitude_cases negative hne
  rw [← hd, ← hdigits]
  have hvalue := natOfDigits_toDigits d.digits
  have hnonempty : digits ≠ [] := hdigits ▸ Nat.toDigits_ne_nil
  rw [← hdigits] at hvalue
  rcases hcases with ⟨hpoint, heq⟩ | heq
  · rw [heq]
    -- with digits behind the point it is the shortest decimal itself
    by_cases hlt : d.exponent < 0
    · refine .inl ((decimal_positional_of_lt negative (by omega)).trans ?_)
      rw [hvalue, Int.add_sub_cancel]
    · obtain ⟨k, hk⟩ := Int.eq_ofNat_of_zero_le (not_lt.1 hlt)
      refine .inr ⟨k, hk, by omega, ?_⟩
      rw [hk, Int.add_comm, ← Int.natCast_add, decimal_positional_of_le negative hnonempty, hvalue]
  · rw [heq, decimal_scientific negative hnonempty, hvalue]
    exact .inl rfl

/-- The decimal that a finite magnitude is written as is near to it, and has no more than eighteen
digits. -/
theorem isNear_ofMagnitude (negative : Bool) {m : Nat} (hm : m < double.infinity) :
    double.IsNear m (ofMagnitude negative m).decimal.value.1
        (ofMagnitude negative m).decimal.value.2
      ∧ (ofMagnitude negative m).decimal.digits < 10 ^ 18 := by
  rcases Nat.eq_zero_or_pos m with rfl | hpos
  · have hzero : (ofMagnitude negative 0).decimal = ⟨0, -1⟩ := rfl
    have hrounds : double.roundsFrom 0 ⟨0, -1⟩ = true := by decide +kernel
    rw [hzero]
    exact ⟨Binary.Format.roundsFrom_iff.1 hrounds, by decide⟩
  · obtain ⟨hnear, hlt⟩ := Binary.shortest_isNear hpos hm
    rcases decimal_ofMagnitude negative (Nat.ne_of_gt hpos) with heq | ⟨k, hk, hlength, heq⟩
    · rw [heq]
      exact ⟨hnear, hlt⟩
    · rw [heq]
      generalize double.shortest m = d at hnear hk hlength
      obtain ⟨digits, exponent⟩ := d
      obtain rfl : exponent = (k : Nat) := hk
      constructor
      -- the zeros behind the point change the digits and not the value
      · have hsame : digits * 10 ^ k * 10 ^ (0 + 1) = digits * 10 ^ (k + 1) * 1 := by
          rw [Nat.mul_one, Nat.pow_succ 10 k, Nat.mul_assoc, Nat.zero_add, Nat.pow_one]
        exact hnear.of_mul_eq Nat.one_pos (Decimal.den_pos _) hsame
      · have hdigits := isDigit_toDigits digits
        have hvalue := natOfDigits_toDigits digits
        generalize Nat.toDigits 10 digits = chars at hdigits hvalue hlength
        -- as many digits as there are characters
        have hbound : natOfDigits (chars.map digitValue) < 10 ^ chars.length := by
          have hlt := natOfDigits_lt
            (List.forall_mem_map.2 fun c hc => digitValue_lt (hdigits c hc))
          rwa [List.length_map] at hlt
        rw [hvalue] at hbound
        calc digits * 10 ^ (k + 1) < 10 ^ chars.length * 10 ^ (k + 1) :=
              Nat.mul_lt_mul_of_pos_right hbound (Nat.pow_pos (by decide))
          _ = 10 ^ (chars.length + k + 1) := by rw [← Nat.pow_add, Nat.add_assoc]
          _ ≤ 10 ^ 18 := Nat.pow_le_pow_right (by decide) (by omega)

end Spelling

/-! ## Doubles that come back -/

/-- The decimal that a finite double is written as, without its sign. -/
def written (bits : UInt64) : Decimal :=
  (Spelling.ofMagnitude (double.isNegative bits.toNat) (double.magnitude bits.toNat)).decimal

/-- What a finite double is read as: its sign stays, its magnitude is the one that the decimal is
read as, which is finite and no more than seven units in the last place apart. -/
structure IsReread (bits back : UInt64) : Prop where
  sign : double.isNegative back.toNat = double.isNegative bits.toNat
  reading : ofScientific (written bits).digits (written bits).exponent
    = some (double.magnitude back.toNat)
  finite : double.isFinite back.toNat = true
  above : double.magnitude back.toNat ≤ double.magnitude bits.toNat + 7
  below : double.magnitude bits.toNat ≤ double.magnitude back.toNat + 7

/-- Sign and magnitude are all there is to a double. -/
theorem double_ext {bits other : UInt64}
    (hsign : double.isNegative bits.toNat = double.isNegative other.toNat)
    (hmagnitude : double.magnitude bits.toNat = double.magnitude other.toNat) : bits = other := by
  have hbits := double.withSign_magnitude bits.toNat_lt
  rw [hsign, hmagnitude, double.withSign_magnitude other.toNat_lt] at hbits
  exact UInt64.toNat_inj.1 hbits.symm

section Finite

variable {bits : UInt64} (hfinite : double.isFinite bits.toNat = true)

include hfinite

theorem written_isNear :
    double.IsNear (double.magnitude bits.toNat) (written bits).value.1 (written bits).value.2
      ∧ (written bits).digits < 10 ^ 18 :=
  Spelling.isNear_ofMagnitude _ (of_decide_eq_true hfinite)

/-- The decimal of a finite double is that of no other one: rounded once, it is the double. -/
theorem round_written : double.round (written bits).value.1 (written bits).value.2
    = double.magnitude bits.toNat :=
  (Binary.Format.round_eq_iff (by decide) (Decimal.den_pos _) (of_decide_eq_true hfinite)).2
    (written_isNear hfinite).1

/-- A finite double is read by the decimal that it is written as. -/
theorem toValue?_ofDouble (room : Nat) :
    Syntax.toValue? room (Json.ofDouble bits).tree
      = (ofScientific (written bits).digits (written bits).exponent).map fun m =>
        .number (.double (UInt64.ofNat (double.withSign (double.isNegative bits.toNat) m))) := by
  have hm := of_decide_eq_true hfinite
  have hspelling : (Number.double bits).spelling? = some (.ofMagnitude
      (double.isNegative bits.toNat) (double.magnitude bits.toNat)) := if_pos hm
  have hdouble := Spelling.double_ofMagnitude (double.isNegative bits.toNat)
    (double.magnitude bits.toNat)
  have hread := Spelling.toNumber?_numeral hdouble
    (Nat.lt_of_lt_of_le (written_isNear hfinite).2 (by decide))
  rw [Spelling.negative_ofMagnitude] at hread
  unfold Json.ofDouble
  rw [if_pos hfinite, Json.tree, hspelling]
  show (Spelling.numeral _).toNumber?.map Json.number = _
  rw [hread, Option.map_map]
  rfl

/-- The decimal of a finite double is read as a finite magnitude that is not far from its own. -/
theorem reading_apart {r : Nat}
    (hr : ofScientific (written bits).digits (written bits).exponent = some r) :
    r < double.infinity ∧ r ≤ double.magnitude bits.toNat + 7
      ∧ double.magnitude bits.toNat ≤ r + 7 := by
  have hm := of_decide_eq_true hfinite
  obtain ⟨hnear, hlt⟩ := written_isNear hfinite
  rcases Nat.eq_zero_or_pos (double.magnitude bits.toNat) with hzero | hpos
  · have hwritten : written bits = ⟨0, -1⟩ := by
      unfold written
      rw [hzero]
      rfl
    have hdigits : (written bits).digits ≤ 2 ^ 53 := by
      rw [hwritten]
      decide
    have hexponent : (written bits).exponent.natAbs ≤ 22 := by
      rw [hwritten]
      decide
    -- zero is read exactly
    have hexact := Binary.ofScientific_exact hdigits hexponent hm hnear
    obtain rfl := Option.some.inj (hexact.symm.trans hr)
    exact ⟨hm, Nat.le_add_right _ _, Nat.le_add_right _ _⟩
  · exact Binary.ofScientific_apart (Nat.lt_trans hlt (by decide)) hpos hm hnear hr

/-- Every finite double is read as one that is not far from it. -/
theorem exists_isReread : ∃ back, IsReread bits back
    ∧ ∀ room, Syntax.toValue? room (Json.ofDouble bits).tree = some (.number (.double back)) := by
  have hread := toValue?_ofDouble hfinite
  obtain ⟨r, hr⟩ : ∃ r, ofScientific (written bits).digits (written bits).exponent = some r := by
    -- the text of a double is always read
    have hsome := isSome_toValue?_double bits 1
    have hnumber : Json.ofDouble bits = .number (.double bits) := if_pos hfinite
    rw [← hnumber, hread, Option.isSome_map] at hsome
    exact Option.isSome_iff_exists.1 hsome
  obtain ⟨hin, habove, hbelow⟩ := reading_apart hfinite hr
  have hsigned := Nat.lt_trans hin double.infinity_lt_signBit
  have hbits := Binary.toNat_withSign (double.isNegative bits.toNat) hsigned
  have hmagnitude := double.magnitude_withSign (double.isNegative bits.toNat) hsigned
  refine ⟨UInt64.ofNat (double.withSign (double.isNegative bits.toNat) r), ?_, fun room => ?_⟩
  · constructor
    · rw [hbits, double.isNegative_withSign _ hsigned]
    · rw [hbits, hmagnitude, hr]
    · unfold Binary.Format.isFinite
      rw [hbits, hmagnitude]
      exact decide_eq_true hin
    · rw [hbits, hmagnitude]
      exact habove
    · rw [hbits, hmagnitude]
      exact hbelow
  · rw [hread, hr]
    rfl

end Finite

namespace IsReread

variable {bits back : UInt64} (h : IsReread bits back)

include h

/-- A double comes back just where reading its decimal gives its magnitude. -/
theorem eq_iff : back = bits ↔ ofScientific (written bits).digits (written bits).exponent
    = some (double.magnitude bits.toNat) := by
  constructor
  · rintro rfl
    exact h.reading
  · intro hread
    exact double_ext h.sign (Option.some.inj (h.reading.symm.trans hread))

/-- Doubles whose decimals need no rounding come back. -/
theorem eq_of_few (hfinite : double.isFinite bits.toNat = true)
    (hdigits : (written bits).digits ≤ 2 ^ 53) (hexponent : (written bits).exponent.natAbs ≤ 22) :
    back = bits :=
  h.eq_iff.2 (Binary.ofScientific_exact hdigits hexponent (of_decide_eq_true hfinite)
    (written_isNear hfinite).1)

end IsReread

/-- A finite single value comes back from the double that its wide one is read as. -/
theorem IsReread.narrow_eq {bits : UInt32} {back : UInt64} (h : IsReread (Binary.widen bits) back)
    (hfinite : single.isFinite bits.toNat = true) : Binary.narrow back = bits := by
  have hm := of_decide_eq_true hfinite
  obtain ⟨wide, hlt, hbits, -, -, hvalue⟩ := Binary.exists_magnitude_widen bits
  have hsign := h.sign
  have habove := h.above
  have hbelow := h.below
  rw [hbits, double.magnitude_withSign _ hlt] at habove hbelow
  rw [hbits, double.isNegative_withSign _ hlt] at hsign
  -- seven units of a double are far less than half a unit of a single value
  have hround := Binary.round_single_of_apart (hvalue hm) hm habove hbelow
  unfold Binary.narrow
  show UInt32.ofNat (single.withSign (double.isNegative back.toNat)
    (single.round (double.value (double.magnitude back.toNat)).1 (2 ^ double.scale))) = bits
  rw [hsign, hround, single.withSign_magnitude bits.toNat_lt, UInt32.ofNat_toNat]

end TableScan.Json
