import Mathlib.Logic.Function.Iterate
import TableScan.Proofs.Table.Frames

/-!
# The checksum register

A shift of the register is linear (`crcShift_xor`) and loses nothing (`crcShift_injective`), so the
register after some bytes tells which one it started from (`crcRegister_injective`).

The low bits of a word are shifted out before its high bits have moved down to their place. So bytes
that are taken in one after another, the least significant first, come to what their word would if
it were taken in at once: main statement `crcRegister_littleEndian`.
-/

namespace TableScan.Table

/-! ## Shifts -/

/-- The lowest bit of a word tells whether its number is odd. -/
theorem and_one_eq_one_iff (x : UInt32) : x &&& 1 = 1 ↔ x.toNat % 2 = 1 := by
  rw [← UInt32.toNat_inj, UInt32.toNat_and]
  show x.toNat &&& 1 = 1 ↔ x.toNat % 2 = 1
  rw [Nat.and_one_is_mod]

/-- A shift of two registers at once; where both shift out a one, the polynomial goes in twice and
is gone again. -/
theorem crcShift_xor (x y : UInt32) : crcShift (x ^^^ y) = crcShift x ^^^ crcShift y := by
  -- the polynomial goes in where exactly one of the two shifts out a one
  have hlow : (x ^^^ y) &&& 1 = 1 ↔ ¬ (x &&& 1 = 1 ↔ y &&& 1 = 1) := by
    rw [and_one_eq_one_iff, and_one_eq_one_iff, and_one_eq_one_iff, UInt32.toNat_xor,
      Nat.xor_mod_two_eq_one]
  have hcancel : ∀ a b p : UInt32, a ^^^ p ^^^ (b ^^^ p) = a ^^^ b := by
    intro a b p
    rw [UInt32.xor_comm b p, UInt32.xor_assoc, ← UInt32.xor_assoc p, UInt32.xor_self,
      UInt32.zero_xor]
  unfold crcShift
  rw [UInt32.shiftRight_xor]
  by_cases hx : x &&& 1 = 1
  · by_cases hy : y &&& 1 = 1
    · rw [if_neg (by simp [hlow, hx, hy]), if_pos hx, if_pos hy, hcancel]
    · rw [if_pos (by simp [hlow, hx, hy]), if_pos hx, if_neg hy]
      ac_rfl
  · by_cases hy : y &&& 1 = 1
    · rw [if_pos (by simp [hlow, hx, hy]), if_neg hx, if_pos hy]
      ac_rfl
    · rw [if_neg (by simp [hlow, hx, hy]), if_neg hx, if_neg hy]

/-- Only zero is shifted to zero. -/
theorem eq_zero_of_crcShift_eq_zero {x : UInt32} (h : crcShift x = 0) : x = 0 := by
  have hhalf : (x >>> 1).toNat = x.toNat / 2 := by
    rw [UInt32.toNat_shiftRight]
    exact Nat.shiftRight_eq_div_pow _ 1
  have hzero : (0 : UInt32).toNat = 0 := rfl
  have hlt := x.toNat_lt
  rw [← UInt32.toNat_inj]
  unfold crcShift at h
  split at h
  · -- the polynomial has the top bit, which nothing shifted has
    have hpoly : crcPolynomial.toNat = 0xEDB88320 := rfl
    rw [UInt32.xor_eq_zero_iff, ← UInt32.toNat_inj, hhalf] at h
    omega
  · next hodd =>
    rw [and_one_eq_one_iff] at hodd
    rw [← UInt32.toNat_inj, hhalf] at h
    omega

/-- A shift loses nothing: registers that are shifted to the same are the same. -/
theorem crcShift_injective : Function.Injective crcShift := by
  intro x y h
  have hzero : crcShift (x ^^^ y) = 0 := by rw [crcShift_xor, h, UInt32.xor_self]
  exact UInt32.xor_eq_zero_iff.1 (eq_zero_of_crcShift_eq_zero hzero)

/-- Shifts of two registers at once, any number of them. -/
theorem iterate_crcShift_xor (count : Nat) (x y : UInt32) :
    crcShift^[count] (x ^^^ y) = crcShift^[count] x ^^^ crcShift^[count] y := by
  induction count generalizing x y with
  | zero => rfl
  | succ count ih =>
    rw [Function.iterate_succ_apply, Function.iterate_succ_apply, Function.iterate_succ_apply,
      crcShift_xor, ih]

/-- A word moves down by as many places as it has zeros at its end. -/
theorem iterate_crcShift_ofNat {count n : Nat} (h : n * 2 ^ count < 2 ^ 32) :
    crcShift^[count] (UInt32.ofNat (n * 2 ^ count)) = UInt32.ofNat n := by
  induction count generalizing n with
  | zero => rw [Nat.pow_zero, Nat.mul_one, Function.iterate_zero_apply]
  | succ count ih =>
    -- the word has a zero at its end, so that a shift halves it
    have heven : n * 2 ^ (count + 1) = 2 * n * 2 ^ count := by
      rw [Nat.pow_succ]
      ac_rfl
    rw [heven] at h ⊢
    have hdouble : 2 * n < 2 ^ 32 :=
      Nat.lt_of_le_of_lt (Nat.le_mul_of_pos_right _ (Nat.two_pow_pos count)) h
    have hn : n < 2 ^ 32 := Nat.lt_of_le_of_lt (Nat.le_mul_of_pos_left n (by decide)) hdouble
    rw [Function.iterate_succ_apply', ih h]
    unfold crcShift
    rw [if_neg]
    · rw [← UInt32.toNat_inj, UInt32.toNat_shiftRight, UInt32.toNat_ofNat_of_lt' hdouble,
        UInt32.toNat_ofNat_of_lt' hn]
      show (2 * n) >>> 1 = n
      rw [Nat.shiftRight_eq_div_pow]
      omega
    · rw [and_one_eq_one_iff, UInt32.toNat_ofNat_of_lt' hdouble]
      omega

/-! ## Bytes -/

/-- A byte is taken in at the low end and then shifted through. -/
theorem crcByte_eq (register : UInt32) (b : UInt8) :
    crcByte register b = crcShift^[8] (register ^^^ b.toUInt32) := rfl

/-- Bytes behind others go on with the register that these have left. -/
theorem crcRegister_append (register : UInt32) (bytes bytes' : List UInt8) :
    crcRegister register (bytes ++ bytes') = crcRegister (crcRegister register bytes) bytes' :=
  List.foldl_append

/-- Two registers that take in the same bytes stay different. -/
theorem crcRegister_injective (bytes : List UInt8) :
    Function.Injective fun register => crcRegister register bytes := by
  induction bytes with
  | nil => exact fun _ _ h => h
  | cons b bytes ih =>
    -- the last bytes do not make the registers equal, so the first one did not either
    intro r s h
    have hbyte : crcByte r b = crcByte s b := ih h
    rw [crcByte_eq, crcByte_eq] at hbyte
    exact (UInt32.xor_left_inj _).1 (crcShift_injective.iterate 8 hbyte)

/-- A number is its low byte and the others, which do not overlap. -/
theorem mod_xor_div_mul (n : Nat) : n % 256 ^^^ n / 256 * 256 = n := by
  apply Nat.eq_of_testBit_eq
  intro i
  rw [Nat.testBit_xor, show (256 : Nat) = 2 ^ 8 from rfl, Nat.testBit_mod_two_pow,
    Nat.testBit_mul_two_pow, Nat.testBit_div_two_pow]
  by_cases h : i < 8
  · simp [h, Nat.not_le.2 h]
  · simp [h, Nat.not_lt.1 h]

/-- The bytes of a word, the least significant first, come to the word taken in at once. -/
theorem crcRegister_littleEndian {width n : Nat} (hwidth : width ≤ 4) (hn : n < 256 ^ width)
    (register : UInt32) :
    crcRegister register (Frame.littleEndian width n)
      = crcShift^[8 * width] (register ^^^ UInt32.ofNat n) := by
  induction width generalizing n register with
  | zero =>
    obtain rfl : n = 0 := Nat.lt_one_iff.1 hn
    exact UInt32.xor_zero.symm
  | succ width ih =>
    have hrest : n / 256 < 256 ^ width := by
      rw [Nat.div_lt_iff_lt_mul (by decide), ← Nat.pow_succ]
      exact hn
    have hword : n / 256 * 256 < 2 ^ 32 := by
      have hmax : 256 ^ (width + 1) ≤ 256 ^ 4 := Nat.pow_le_pow_right (by decide) hwidth
      omega
    -- the word is its low byte and the others, moved up by eight places
    have hparts : (UInt8.ofNat n).toUInt32 ^^^ UInt32.ofNat (n / 256 * 256) = UInt32.ofNat n := by
      have hbyte : (UInt8.ofNat n).toUInt32 = UInt32.ofNat (n % 256) := by
        rw [← UInt32.toNat_inj, UInt8.toNat_toUInt32, UInt8.toNat_ofNat', UInt32.toNat_ofNat']
        omega
      rw [hbyte, ← UInt32.ofNat_xor, mod_xor_div_mul]
    -- eight shifts bring the other bytes of the word to where the next byte is taken in
    calc crcRegister (crcByte register (UInt8.ofNat n)) (Frame.littleEndian width (n / 256))
        = crcShift^[8 * width] (crcByte register (UInt8.ofNat n) ^^^ UInt32.ofNat (n / 256)) :=
          ih (Nat.le_of_succ_le hwidth) hrest _
      _ = crcShift^[8 * width] (crcShift^[8] (register ^^^ UInt32.ofNat n)) := by
          rw [← iterate_crcShift_ofNat (show n / 256 * 2 ^ 8 < 2 ^ 32 from hword), crcByte_eq,
            ← iterate_crcShift_xor, UInt32.xor_assoc, hparts]
      _ = crcShift^[8 * (width + 1)] (register ^^^ UInt32.ofNat n) := by
          rw [← Function.iterate_add_apply, Nat.mul_succ]

end TableScan.Table
