import Mathlib.Data.EReal.Operations
import TableScan.Proofs.Binary.Widening
import TableScan.Proofs.RowKey.TupleOrder
import TableScan.Proofs.Table.Cursors

/-!
# Row keys: numeric order

The bits of a floating-point value stand for a number, which may be infinite, or for none
(`Format.number?`). Different magnitudes are different numbers, so the values of one format are the
same number only if they are zeros of opposite signs. Keys tell the two zeros apart and have the
negative one first.

Main statement: the keys of tuples that differ in one floating-point value compare as the numbers
there, and after that by the sign. A seek for the number of a row passes the row over just when it
has negative zero where zero is sought (`keyOfTuple_number`).
-/

namespace TableScan

namespace Binary

/-! ## Numbers -/

namespace Format

variable (f : Format)

/-- The number that a magnitude stands for. -/
noncomputable def amount (m : Nat) : EReal :=
  if m < f.infinity then (((f.value m).1 / (f.value m).2 : ℝ) : EReal) else ⊤

/-- The number that bits stand for; missing if they are not a number. -/
noncomputable def number? (bits : Nat) : Option EReal :=
  if f.magnitude bits ≤ f.infinity then
    some (if f.isNegative bits then -f.amount (f.magnitude bits) else f.amount (f.magnitude bits))
  else none

theorem amount_nonneg (m : Nat) : 0 ≤ f.amount m := by
  unfold amount
  split
  · exact EReal.coe_nonneg.2 (div_nonneg (Nat.cast_nonneg _) (Nat.cast_nonneg _))
  · exact le_top

theorem amount_zero (h : 0 < f.infinity) : f.amount 0 = 0 := by
  have hvalue : (f.value 0).1 = 0 := by
    show f.significand 0 * 2 ^ f.exponent 0 = 0
    rw [show f.significand 0 = 0 from Nat.zero_sub _, Nat.zero_mul]
  unfold amount
  rw [if_pos h, hvalue, Nat.cast_zero, zero_div]
  rfl

/-- Greater magnitudes are greater amounts, up to infinity. -/
theorem amount_lt_amount {m n : Nat} (h : m < n) (hn : n ≤ f.infinity) :
    f.amount m < f.amount n := by
  have hm : m < f.infinity := Nat.lt_of_lt_of_le h hn
  have hvalue : (f.value m).1 < (f.value n).1 := f.value_strictMono h
  have hunit : (0 : ℝ) < (2 ^ f.scale : Nat) := Nat.cast_pos.2 (Nat.two_pow_pos _)
  unfold amount
  rw [if_pos hm]
  split
  · exact EReal.coe_lt_coe_iff.2 (div_lt_div_of_pos_right (Nat.cast_lt.2 hvalue) hunit)
  · exact EReal.coe_lt_top _

/-- Amounts compare as their magnitudes. -/
theorem compare_amount {m n : Nat} (hm : m ≤ f.infinity) (hn : n ≤ f.infinity) :
    compare (f.amount m) (f.amount n) = compare m n := by
  rcases Nat.lt_trichotomy m n with h | rfl | h
  · rw [compare_lt_iff_lt.2 (f.amount_lt_amount h hn), Nat.compare_eq_lt.2 h]
  · rw [compare_eq_iff_eq.2 rfl, Nat.compare_eq_eq.2 rfl]
  · rw [compare_gt_iff_gt.2 (f.amount_lt_amount h hm), Nat.compare_eq_gt.2 h]

theorem compare_sub (m n : Nat) : compare (-1 - (m : Int)) (-1 - n) = compare n m := by
  rcases Nat.lt_trichotomy n m with h | rfl | h
  · rw [Nat.compare_eq_lt.2 h, Int.compare_eq_lt.2 (by omega)]
  · rw [Nat.compare_eq_eq.2 rfl, Int.compare_eq_eq.2 rfl]
  · rw [Nat.compare_eq_gt.2 h, Int.compare_eq_gt.2 (by omega)]

theorem compare_neg (x y : EReal) : compare (-x) (-y) = compare y x := by
  rcases lt_trichotomy y x with h | rfl | h
  · rw [compare_lt_iff_lt.2 h, compare_lt_iff_lt.2 (EReal.neg_lt_neg_iff.2 h)]
  · rw [compare_eq_iff_eq.2 rfl, compare_eq_iff_eq.2 rfl]
  · rw [compare_gt_iff_gt.2 h, compare_gt_iff_gt.2 (EReal.neg_lt_neg_iff.2 h)]

variable {f} {a b : Nat} {x y : EReal}

theorem number?_eq_some (h : f.number? a = some x) :
    f.magnitude a ≤ f.infinity
      ∧ x = if f.isNegative a then -f.amount (f.magnitude a) else f.amount (f.magnitude a) := by
  unfold number? at h
  split at h
  · next hle => exact ⟨hle, (Option.some.inj h).symm⟩
  · cases h

theorem nonpos_of_number? (h : f.number? a = some x) (hn : f.isNegative a = true) : x ≤ 0 := by
  obtain ⟨-, rfl⟩ := number?_eq_some h
  rw [if_pos hn]
  exact EReal.neg_le_zero.2 (f.amount_nonneg _)

theorem nonneg_of_number? (h : f.number? a = some x) (hn : f.isNegative a = false) : 0 ≤ x := by
  obtain ⟨-, rfl⟩ := number?_eq_some h
  rw [if_neg (by rw [hn]; decide)]
  exact f.amount_nonneg _

/-- The order of signs and magnitudes is that of the numbers, and the negative one comes first of
two that are the same. -/
theorem compare_rank (ha : f.number? a = some x) (hb : f.number? b = some y) :
    compare (f.rank a) (f.rank b)
      = (compare x y).then (compare (f.isNegative b) (f.isNegative a)) := by
  obtain ⟨hma, hx⟩ := number?_eq_some ha
  obtain ⟨hmb, hy⟩ := number?_eq_some hb
  have hcompare := f.compare_amount hma hmb
  have hswapped := f.compare_amount hmb hma
  unfold rank
  generalize f.magnitude a = m at hx hcompare hswapped ⊢
  generalize f.magnitude b = n at hy hcompare hswapped ⊢
  -- four cases by the signs: of equal signs the magnitudes decide, of different ones the sign does
  cases hna : f.isNegative a with
  | false =>
    rw [hna] at hx
    cases hnb : f.isNegative b with
    | false =>
      rw [hnb] at hy
      subst hx hy
      show compare (m : Int) n = (compare (f.amount m) (f.amount n)).then .eq
      rw [hcompare, Ordering.then_eq,
        RowKey.compare_natCast_add (Int.add_zero _).symm (Int.add_zero _).symm]
    | true =>
      -- here the numbers may still be the same, if both are zero
      have hle : y ≤ x := (nonpos_of_number? hb hnb).trans (nonneg_of_number? ha hna)
      show compare (m : Int) (-1 - n) = (compare x y).then .gt
      rw [Int.compare_eq_gt.2 (by omega)]
      rcases hle.lt_or_eq with hlt | rfl
      · rw [compare_gt_iff_gt.2 hlt]
        rfl
      · rw [compare_eq_iff_eq.2 rfl]
        rfl
  | true =>
    rw [hna] at hx
    cases hnb : f.isNegative b with
    | false =>
      have hle : x ≤ y := (nonpos_of_number? ha hna).trans (nonneg_of_number? hb hnb)
      show compare (-1 - (m : Int)) n = (compare x y).then .lt
      rw [Int.compare_eq_lt.2 (by omega)]
      rcases hle.lt_or_eq with hlt | rfl
      · rw [compare_lt_iff_lt.2 hlt]
        rfl
      · rw [compare_eq_iff_eq.2 rfl]
        rfl
    | true =>
      rw [hnb] at hy
      subst hx hy
      show compare (-1 - (m : Int)) (-1 - n) = (compare (-f.amount m) (-f.amount n)).then .eq
      rw [Ordering.then_eq, compare_neg, hswapped, compare_sub]

end Format

theorem isNegative_widen (bits : UInt32) :
    double.isNegative (widen bits).toNat = single.isNegative bits.toNat := by
  obtain ⟨wide, hlt, hbits, -⟩ := exists_magnitude_widen bits
  rw [hbits, double.isNegative_withSign _ hlt]

/-- A widened value stands for the same number. -/
theorem number?_widen (bits : UInt32) :
    double.number? (widen bits).toNat = single.number? bits.toNat := by
  obtain ⟨wide, hlt, hbits, hfinite, hnumber, hvalue⟩ := exists_magnitude_widen bits
  -- widening keeps the value of a finite magnitude and the infinite one
  have hamount : double.amount wide = single.amount (single.magnitude bits.toNat) := by
    unfold Format.amount
    by_cases h : single.magnitude bits.toNat < single.infinity
    · rw [if_pos h, if_pos (hfinite.2 h), hvalue h]
      -- both denominators are powers of two, and the value was widened by their quotient
      show (((_ * 2 ^ (double.scale - single.scale) : Nat) / (2 ^ double.scale : Nat) : ℝ) : EReal)
        = ((_ / (2 ^ single.scale : Nat) : ℝ) : EReal)
      have hscale : double.scale = single.scale + (double.scale - single.scale) := rfl
      rw [hscale, Nat.add_sub_cancel_left, Nat.pow_add, Nat.cast_mul, Nat.cast_mul,
        mul_div_mul_right _ _ (Nat.cast_ne_zero.2 (Nat.ne_of_gt (Nat.two_pow_pos _)))]
    · rw [if_neg h, if_neg (mt hfinite.1 h)]
  unfold Format.number?
  rw [hbits, double.magnitude_withSign _ hlt, double.isNegative_withSign _ hlt, hamount]
  exact if_congr hnumber rfl rfl

end Binary

variable {x y : EReal}

/-! ## Values -/

namespace Value

/-- The number that a floating-point value is; missing if it is not one, or of another type. -/
noncomputable def number? : Value → Option EReal
  | .float bits => Binary.single.number? bits.toNat
  | .double bits => Binary.double.number? bits.toNat
  | _ => none

/-- Whether a floating-point value has its sign bit set. -/
def isNegative : Value → Bool
  | .float bits => Binary.single.isNegative bits.toNat
  | .double bits => Binary.double.isNegative bits.toNat
  | _ => false

/-- Widening to the type of a column keeps the number. -/
theorem number?_widenTo (p : Primitive) (v : Value) : (v.widenTo p).number? = v.number? := by
  cases v with
  | float bits =>
    cases p with
    | double => exact Binary.number?_widen bits
    | _ => rfl
  | _ => cases p <;> rfl

theorem isNegative_widenTo (p : Primitive) (v : Value) :
    (v.widenTo p).isNegative = v.isNegative := by
  cases v with
  | float bits =>
    cases p with
    | double => exact Binary.isNegative_widen bits
    | _ => rfl
  | _ => cases p <;> rfl

theorem order_self (v : Value) : v.order v = .eq := by
  cases v with
  | bool b => exact Std.ReflOrd.compare_self
  | int n => exact Std.ReflOrd.compare_self
  | long n => exact Std.ReflOrd.compare_self
  | float bits => exact Std.ReflOrd.compare_self
  | double bits => exact Std.ReflOrd.compare_self
  | string s => exact Std.ReflOrd.compare_self
  | bytes bs => exact Std.ReflOrd.compare_self
  | _ => rfl

/-- Two numbers of one type are in numeric order, and the negative one comes first of two that are
the same. -/
theorem order_of_number? {p : Primitive} {v w : Value} (hv : v.IsOf p) (hw : w.IsOf p)
    (hx : v.number? = some x) (hy : w.number? = some y) :
    v.order w = (compare x y).then (compare w.isNegative v.isNegative) := by
  cases hv with
  | float a =>
    cases hw with
    | float b => exact Binary.Format.compare_rank hx hy
  | double a =>
    cases hw with
    | double b => exact Binary.Format.compare_rank hx hy
  | _ => cases hx

theorem nonpos_of_number? {v : Value} (h : v.number? = some x) (hn : v.isNegative = true) :
    x ≤ 0 := by
  cases v with
  | float bits => exact Binary.Format.nonpos_of_number? h hn
  | double bits => exact Binary.Format.nonpos_of_number? h hn
  | _ => cases h

theorem nonneg_of_number? {v : Value} (h : v.number? = some x) (hn : v.isNegative = false) :
    0 ≤ x := by
  cases v with
  | float bits => exact Binary.Format.nonneg_of_number? h hn
  | double bits => exact Binary.Format.nonneg_of_number? h hn
  | _ => cases h

/-- Values of opposite signs that are the same number are zeros. -/
theorem eq_zero_of_number? {v w : Value} (hx : v.number? = some x) (hy : w.number? = some x)
    (h : v.isNegative ≠ w.isNegative) : x = 0 := by
  -- the number is neither above nor below zero, as one sign bounds it on either side
  cases hv : v.isNegative with
  | false =>
    have hw : w.isNegative = true := by
      rw [hv] at h
      exact Bool.eq_true_of_not_eq_false (Ne.symm h)
    exact le_antisymm (nonpos_of_number? hy hw) (nonneg_of_number? hx hv)
  | true =>
    have hw : w.isNegative = false := by
      rw [hv] at h
      exact Bool.eq_false_of_not_eq_true (Ne.symm h)
    exact le_antisymm (nonpos_of_number? hx hv) (nonneg_of_number? hy hw)

end Value

/-! ## Keys -/

theorem tupleOrder_self (types : List Primitive) (vs : List Value) :
    tupleOrder types vs vs = .eq := by
  induction vs generalizing types with
  | nil => cases types <;> rfl
  | cons v vs ih =>
    cases types with
    | nil => rfl
    | cons p types => rw [tupleOrder, Value.order_self, ih, Ordering.then_eq]

namespace RowKey

/-- The keys of tuples that differ in one value compare as the values there. -/
theorem EncodesTuple.compare_of_append {types : List Primitive} {before after : List Value}
    {a b : Value} {k l : List UInt8} (hv : EncodesTuple types (before ++ a :: after) k)
    (hw : EncodesTuple types (before ++ b :: after) l) :
    ∃ p v w, encodeField? p a = some v ∧ encodeField? p b = some w
      ∧ compare k l = (a.widenTo p).order (b.widenTo p) := by
  induction before generalizing types k l with
  | nil =>
    have hcompare := hv.compare_eq hw
    cases hv with
    | @cons p types _ _ v _ ha hafter =>
      cases hw with
      | cons hb _ =>
        rw [List.nil_append, List.nil_append, tupleOrder, tupleOrder_self, Ordering.then_eq]
          at hcompare
        exact ⟨p, _, _, ha, hb, hcompare⟩
  | cons c before ih =>
    cases hv with
    | cons hc hv =>
      cases hw with
      | cons hd hw =>
        obtain ⟨p, v, w, ha, hb, hcompare⟩ := ih hv hw
        refine ⟨p, v, w, ha, hb, ?_⟩
        -- the field is the same in both, so the order is decided behind it
        rw [compare_encodeField_append hc hd, Value.order_self, hcompare]
        rfl

/-- A number that is written into a key counts as a value of the type of its column. -/
theorem isOf_widenTo_of_number? {p : Primitive} {a : Value} {v : List UInt8}
    (h : encodeField? p a = some v) (hx : a.number? = some x) : (a.widenTo p).IsOf p := by
  rcases encodeField?_cases h with ⟨rfl, -⟩ | ⟨y, hy, -⟩
  · cases hx
  · exact isOf_widenTo hy

end RowKey

namespace KeyLayout

open TableCursor (dropBelow Queue)

/-- The keys of tuples that differ in one floating-point value compare as the numbers there, and
then by the signs, which are different for zeros alone. A row under the first key is passed over,
where the second one is sought and spells the same number, just when the row has negative zero and
zero is sought. -/
theorem keyOfTuple_number {g : KeyLayout} {before after : List Value} {a b : Value} {k l : RowKey}
    (hk : g.keyOfTuple (before ++ a :: after) = .ok k)
    (hl : g.keyOfTuple (before ++ b :: after) = .ok l)
    (hx : a.number? = some x) (hy : b.number? = some y) :
    compare k.bytes l.bytes = (compare x y).then (compare b.isNegative a.isNegative)
      ∧ (compare k.bytes l.bytes ≠ compare x y ↔ x = 0 ∧ y = 0 ∧ a.isNegative ≠ b.isNegative)
      ∧ ∀ {disk p s q e}, Queue disk p s q → KeyedRow.Ascending q → e ∈ q → e.key = k → x = y →
          ∃ s' q', dropBelow disk l s = ⟨.ok (), s', []⟩ ∧ Queue disk p s' q'
            ∧ (e ∉ q' ↔ x = 0 ∧ a.isNegative = true ∧ b.isNegative = false) := by
  obtain ⟨t, v, w, ha, hb, horder⟩ :=
    (encodesTuple_of_keyOfTuple hk).compare_of_append (encodesTuple_of_keyOfTuple hl)
  have hcompare : compare k.bytes l.bytes
      = (compare x y).then (compare b.isNegative a.isNegative) := by
    rw [horder, Value.order_of_number? (RowKey.isOf_widenTo_of_number? ha hx)
      (RowKey.isOf_widenTo_of_number? hb hy) ((Value.number?_widenTo t a).trans hx)
      ((Value.number?_widenTo t b).trans hy), Value.isNegative_widenTo, Value.isNegative_widenTo]
  refine ⟨hcompare, ?_, ?_⟩
  · -- the signs have a say only where the numbers are the same
    have hdiffers : ∀ o c : Ordering, o.then c ≠ o ↔ o = .eq ∧ c ≠ .eq := by decide
    rw [hcompare, hdiffers, compare_eq_iff_eq, ne_eq, Std.compare_eq_iff_eq]
    constructor
    · rintro ⟨rfl, hsigns⟩
      have hzero := Value.eq_zero_of_number? hx hy (Ne.symm hsigns)
      exact ⟨hzero, hzero, Ne.symm hsigns⟩
    · rintro ⟨rfl, rfl, hsigns⟩
      exact ⟨rfl, Ne.symm hsigns⟩
  · rintro disk p s q e hqueue hascending he rfl rfl
    obtain ⟨s', hdrop, hqueue'⟩ := TableCursor.dropBelow_of_queue l hqueue
    refine ⟨s', _, hdrop, hqueue', ?_⟩
    have hsigns : ∀ c d : Bool, compare d c = .lt ↔ c = true ∧ d = false := by decide
    -- the numbers are the same here, so the signs alone decide what is below
    have hbelow : e.key < l ↔ a.isNegative = true ∧ b.isNegative = false := by
      rw [← hsigns, show e.key < l ↔ _ from RowKey.lt_iff_compare_eq_lt _ _, hcompare,
        compare_eq_iff_eq.2 rfl]
      rfl
    rw [KeyedRow.dropWhile_below hascending, List.mem_filter, Bool.not_eq_true',
      decide_eq_false_iff_not, not_and_not_right, hbelow]
    constructor
    · intro h
      obtain ⟨hna, hnb⟩ := h he
      exact ⟨Value.eq_zero_of_number? hx hy (by rw [hna, hnb]; decide), hna, hnb⟩
    · rintro ⟨-, hna, hnb⟩ -
      exact ⟨hna, hnb⟩

/-- A single value makes the same key as the double one that is the same number. -/
theorem keyOfTuple_oneAndAHalf :
    forTuples ⟨⟨[⟨"d", .primitive .double⟩]⟩⟩ = .ok ⟨[⟨"d", .double, 0⟩]⟩
      ∧ keyOfTuple ⟨[⟨"d", .double, 0⟩]⟩ [.float 0x3fc00000]
        = .ok ⟨[1, 191, 248, 0, 0, 0, 0, 0, 0]⟩
      ∧ keyOfTuple ⟨[⟨"d", .double, 0⟩]⟩ [.double 0x3ff8000000000000]
        = .ok ⟨[1, 191, 248, 0, 0, 0, 0, 0, 0]⟩
      ∧ ∃ x, (Value.float 0x3fc00000).number? = some x
        ∧ (Value.double 0x3ff8000000000000).number? = some x
        ∧ compare [1, 191, 248, 0, 0, 0, 0, 0, 0] [(1 : UInt8), 191, 248, 0, 0, 0, 0, 0, 0]
          = compare x x := by
  have hg : forTuples ⟨⟨[⟨"d", .primitive .double⟩]⟩⟩ = .ok ⟨[⟨"d", .double, 0⟩]⟩ := rfl
  have hsingle : keyOfTuple ⟨[⟨"d", .double, 0⟩]⟩ ([] ++ .float 0x3fc00000 :: [])
      = .ok ⟨[1, 191, 248, 0, 0, 0, 0, 0, 0]⟩ := by decide +kernel
  have hdouble : keyOfTuple ⟨[⟨"d", .double, 0⟩]⟩ ([] ++ .double 0x3ff8000000000000 :: [])
      = .ok ⟨[1, 191, 248, 0, 0, 0, 0, 0, 0]⟩ := by decide +kernel
  have hx : (Value.float 0x3fc00000).number?
      = some (Binary.single.amount (Binary.single.magnitude 0x3fc00000)) := rfl
  have hy : (Value.double 0x3ff8000000000000).number?
      = some (Binary.single.amount (Binary.single.magnitude 0x3fc00000)) := by
    have hwiden : (0x3ff8000000000000 : UInt64) = Binary.widen 0x3fc00000 := by decide +kernel
    rw [hwiden]
    exact (Binary.number?_widen 0x3fc00000).trans hx
  refine ⟨hg, hsingle, hdouble, _, hx, hy, ?_⟩
  by_contra hne
  exact ((keyOfTuple_number hsingle hdouble hx hy).2.1.1 hne).2.2 rfl

/-- The two zeros are the same number and make different keys. -/
theorem keyOfTuple_zeros :
    forTuples ⟨⟨[⟨"d", .primitive .double⟩]⟩⟩ = .ok ⟨[⟨"d", .double, 0⟩]⟩
      ∧ keyOfTuple ⟨[⟨"d", .double, 0⟩]⟩ [.double 0x8000000000000000]
        = .ok ⟨[1, 127, 255, 255, 255, 255, 255, 255, 255]⟩
      ∧ keyOfTuple ⟨[⟨"d", .double, 0⟩]⟩ [.double 0] = .ok ⟨[1, 128, 0, 0, 0, 0, 0, 0, 0]⟩
      ∧ (Value.double 0x8000000000000000).number? = some 0
      ∧ (Value.double 0).number? = some 0
      ∧ RowKey.mk [1, 127, 255, 255, 255, 255, 255, 255, 255]
        < ⟨[1, 128, 0, 0, 0, 0, 0, 0, 0]⟩ := by
  -- both are the amount of the magnitude zero, one of them negated
  have hpos : (Value.double 0).number? = some (Binary.double.amount 0) := rfl
  have hneg : (Value.double 0x8000000000000000).number? = some (-Binary.double.amount 0) := rfl
  have hzero : Binary.double.amount 0 = 0 := Binary.double.amount_zero (by decide)
  rw [hzero] at hpos hneg
  rw [neg_zero] at hneg
  exact ⟨rfl, by decide +kernel, by decide +kernel, hneg, hpos, by decide⟩

end KeyLayout

end TableScan
