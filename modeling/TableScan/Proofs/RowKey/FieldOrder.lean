import Mathlib.Data.List.Forall2
import TableScan.RowKey.Basic

/-!
# Row keys: the order of one field

The order in which a sort column's values are meant to stand, said without any bytes: null before
every value, numbers by size, floating-point values by the total order of their signs and
magnitudes, strings and bytes byte by byte. Values of a narrower type count as the wide value that
they stand for (`Value.widenTo`).

Main statement: the encoding of a field brings this order into every key that it is a part of.
Whatever bytes follow two fields, comparing the whole is comparing the two values and then, if these
are equal, what follows (`compare_encodeField_append`). No lengths are written, so this is also why
the fields of a key can stand one after another: no field is the beginning of another one, and each
can be cut off what follows in one way only (`encodeField?_delimits_itself`).
-/

namespace TableScan

/-- The place of a bit pattern in the order of signs and magnitudes. Negative zero comes right
before zero. -/
def Binary.Format.rank (f : Binary.Format) (bits : Nat) : Int :=
  if f.isNegative bits then -1 - f.magnitude bits else f.magnitude bits

namespace Value

/-- A value as one of a type: a narrow number counts as the wide one, all else as itself. -/
def widenTo : Primitive → Value → Value
  | .long, .int v => .long v.toInt64
  | .double, .float bits => .double (Binary.widen bits)
  | _, v => v

/-- The order of two values of one type, null first. -/
def order : Value → Value → Ordering
  | .null, .null => .eq
  | .null, _ => .lt
  | _, .null => .gt
  | .bool a, .bool b => compare a b
  | .int a, .int b => compare a.toInt b.toInt
  | .long a, .long b => compare a.toInt b.toInt
  | .float a, .float b => compare (Binary.single.rank a.toNat) (Binary.single.rank b.toNat)
  | .double a, .double b => compare (Binary.double.rank a.toNat) (Binary.double.rank b.toNat)
  | .string a, .string b => compare (Text.utf8Bytes a) (Text.utf8Bytes b)
  | .bytes a, .bytes b => compare a b
  | _, _ => .eq

/-- Holds of the values of a primitive type, null apart. -/
inductive IsOf : Primitive → Value → Prop where
  | int (v : Int32) : IsOf .int (.int v)
  | long (v : Int64) : IsOf .long (.long v)
  | float (bits : UInt32) : IsOf .float (.float bits)
  | double (bits : UInt64) : IsOf .double (.double bits)
  | string (s : String) : IsOf .string (.string s)
  | bytes (bs : List UInt8) : IsOf .bytes (.bytes bs)
  | bool (b : Bool) : IsOf .bool (.bool b)

end Value

namespace RowKey

/-! ## Comparing bytes -/

theorem lt_iff_compare_eq_lt (a b : List UInt8) : a < b ↔ compare a b = .lt := by
  induction a generalizing b with
  | nil => cases b <;> simp
  | cons x a ih =>
    cases b with
    | nil => simp
    | cons y b =>
      rw [List.cons_lt_cons_iff, List.compare_cons_cons, Ordering.then_eq_lt, ih b,
        Std.compare_eq_iff_eq, ← Std.compare_eq_lt (a := x)]

theorem compare_natCast_add {m n : Nat} {i j d : Int} (hm : (m : Int) = i + d)
    (hn : (n : Int) = j + d) : compare m n = compare i j := by
  rcases Int.lt_trichotomy i j with h | h | h
  · rw [Int.compare_eq_lt.2 h, Nat.compare_eq_lt.2 (by omega)]
  · rw [Int.compare_eq_eq.2 h, Nat.compare_eq_eq.2 (by omega)]
  · rw [Int.compare_eq_gt.2 h, Nat.compare_eq_gt.2 (by omega)]

theorem compare_div_mod (m n : Nat) :
    compare m n = (compare (m / 256) (n / 256)).then (compare (m % 256) (n % 256)) := by
  rcases Nat.lt_trichotomy (m / 256) (n / 256) with h | h | h
  · rw [Nat.compare_eq_lt.2 h, Nat.compare_eq_lt.2 (by omega)]
    rfl
  · have hm := Nat.div_add_mod m 256
    have hn := Nat.div_add_mod n 256
    rw [h] at hm
    -- both numbers are their remainders, moved by the same multiple of 256
    have hmoved : compare m n = compare ((m % 256 : Nat) : Int) ((n % 256 : Nat) : Int) :=
      compare_natCast_add (d := 256 * (n / 256)) (by omega) (by omega)
    have hstill : compare (m % 256) (n % 256) = compare ((m % 256 : Nat) : Int) (n % 256 : Nat) :=
      compare_natCast_add (d := 0) (by omega) (by omega)
    rw [Nat.compare_eq_eq.2 h, hmoved, hstill]
    rfl
  · rw [Nat.compare_eq_gt.2 h, Nat.compare_eq_gt.2 (by omega)]
    rfl

/-! ## Numbers of a fixed width -/

/-- Numbers of one width in big-endian bytes compare by size, and then by what follows. -/
theorem compare_bigEndian_append {width m n : Nat} (hm : m < 256 ^ width) (hn : n < 256 ^ width)
    (r s : List UInt8) :
    compare (bigEndian width m ++ r) (bigEndian width n ++ s)
      = (compare m n).then (compare r s) := by
  induction width generalizing m n r s with
  | zero =>
    obtain rfl : m = 0 := by simpa using hm
    obtain rfl : n = 0 := by simpa using hn
    rfl
  | succ width ih =>
    rw [Nat.pow_succ] at hm hn
    have hlast : compare (UInt8.ofNat m) (UInt8.ofNat n) = compare (m % 256) (n % 256) := by
      rw [UInt8.compare_eq_toNat_compare_toNat, UInt8.toNat_ofNat', UInt8.toNat_ofNat']
    -- the last byte goes over to what follows the shorter number
    rw [bigEndian, bigEndian, List.append_assoc, List.append_assoc,
      ih (by omega) (by omega), List.singleton_append, List.singleton_append,
      List.compare_cons_cons, hlast, ← Ordering.then_assoc, ← compare_div_mod]

/-- The bits of a floating-point value are put into the order of signs and magnitudes. -/
theorem natCast_orderedBits {f : Binary.Format} {bits : Nat} (h : bits < 2 * f.signBit) :
    (orderedBits f bits : Int) = f.rank bits + f.signBit := by
  -- with the sign bit set the bits are counted down from it, else up
  have hmod := Nat.mod_add_div bits f.signBit
  unfold orderedBits Binary.Format.rank Binary.Format.magnitude Binary.Format.isNegative
  by_cases hn : f.signBit ≤ bits
  · have hdiv : bits % f.signBit = bits - f.signBit := by
      rw [Nat.mod_eq_sub_mod hn, Nat.mod_eq_of_lt (by omega)]
    simp only [hn, decide_true, if_true, hdiv]
    omega
  · have hdiv : bits % f.signBit = bits := Nat.mod_eq_of_lt (by omega)
    simp only [hn, decide_false, hdiv]
    simp

theorem orderedBits_lt {f : Binary.Format} {bits : Nat} (h : bits < 2 * f.signBit) :
    orderedBits f bits < 2 * f.signBit := by
  unfold orderedBits Binary.Format.isNegative
  by_cases hn : f.signBit ≤ bits
  · simp only [hn, decide_true, if_true]
    omega
  · simp only [hn, decide_false]
    simp only [Bool.false_eq_true, if_false]
    omega

theorem rank_injective {f : Binary.Format} {a b : Nat} (ha : a < 2 * f.signBit)
    (hb : b < 2 * f.signBit) (h : f.rank a = f.rank b) : a = b := by
  have hab : orderedBits f a = orderedBits f b := by
    have := natCast_orderedBits ha
    have := natCast_orderedBits hb
    omega
  unfold orderedBits Binary.Format.isNegative at hab
  by_cases hna : f.signBit ≤ a <;> by_cases hnb : f.signBit ≤ b <;> simp [hna, hnb] at hab <;> omega

/-! ## Bytes with an end -/

theorem terminated_zero_cons (b : List UInt8) :
    terminated (0 :: b) = 0 :: 255 :: terminated b := by
  rw [terminated, if_pos rfl]

theorem terminated_cons_of_ne {y : UInt8} (h : y ≠ 0) (b : List UInt8) :
    terminated (y :: b) = y :: terminated b := by
  rw [terminated, if_neg h]

theorem compare_zero_of_ne {y : UInt8} (h : y ≠ 0) : compare 0 y = .lt := by
  have hpos : 0 < y.toNat := Nat.pos_of_ne_zero fun e => h (UInt8.toNat_inj.1 e)
  rw [UInt8.compare_eq_toNat_compare_toNat]
  exact Nat.compare_eq_lt.2 hpos

/-- The end of some bytes stands below every further byte, also below a zero and its mark. -/
theorem compare_terminated_nil_cons (y : UInt8) (b r s : List UInt8) :
    compare (terminated [] ++ r) (terminated (y :: b) ++ s) = .lt := by
  by_cases hy : y = 0
  · subst hy
    rw [terminated_zero_cons]
    rfl
  · rw [terminated_cons_of_ne hy]
    show compare (0 :: 0 :: r) (y :: (terminated b ++ s)) = .lt
    rw [List.compare_cons_cons, compare_zero_of_ne hy]
    rfl

/-- Terminated bytes compare as the bytes, and then as what follows. -/
theorem compare_terminated_append (a b r s : List UInt8) :
    compare (terminated a ++ r) (terminated b ++ s) = (compare a b).then (compare r s) := by
  induction a generalizing b with
  | nil =>
    cases b with
    | nil => simp [terminated, List.compare_cons_cons]
    | cons y b => exact compare_terminated_nil_cons y b r s
  | cons x a ih =>
    cases b with
    | nil =>
      rw [Std.OrientedOrd.eq_swap, compare_terminated_nil_cons x a s r]
      rfl
    | cons y b =>
      rw [List.compare_cons_cons, Ordering.then_assoc, ← ih b]
      -- a zero is written with a mark behind it, so two bytes that are both zero, or both not,
      -- compare as they are, and a zero stands below all others
      by_cases hx : x = 0 <;> by_cases hy : y = 0
      · rw [hx, hy, terminated_zero_cons, terminated_zero_cons]
        rfl
      · rw [hx, terminated_zero_cons, terminated_cons_of_ne hy]
        simp only [List.cons_append, List.compare_cons_cons, compare_zero_of_ne hy]
        rfl
      · rw [hy, terminated_zero_cons, terminated_cons_of_ne hx]
        have hgt : compare x 0 = .gt := by
          rw [Std.OrientedOrd.eq_swap, compare_zero_of_ne hx]
          rfl
        simp only [List.cons_append, List.compare_cons_cons, hgt]
        rfl
      · rw [terminated_cons_of_ne hx, terminated_cons_of_ne hy, List.cons_append, List.cons_append,
          List.compare_cons_cons]

/-! ## Values -/

theorem encodeValue?_widenTo (p : Primitive) (v : Value) :
    encodeValue? p (v.widenTo p) = encodeValue? p v := by
  cases p <;> cases v <;> simp [Value.widenTo, encodeValue?]

/-- What a type encodes counts as a value of this type. -/
theorem isOf_widenTo {p : Primitive} {v : Value} {x : List UInt8}
    (h : encodeValue? p v = some x) : (v.widenTo p).IsOf p := by
  cases p <;> cases v <;> simp [encodeValue?] at h <;> constructor

theorem exists_encodeValue_of_isOf {p : Primitive} {v : Value} (h : v.IsOf p) :
    ∃ x, encodeValue? p v = some x := by
  cases h <;> exact ⟨_, rfl⟩

theorem compare_shifted_append {width m n : Nat} {i j d : Int} (hm : (m : Int) = i + d)
    (hn : (n : Int) = j + d) (hmw : m < 256 ^ width) (hnw : n < 256 ^ width)
    (r s : List UInt8) :
    compare (bigEndian width m ++ r) (bigEndian width n ++ s)
      = (compare i j).then (compare r s) := by
  rw [compare_bigEndian_append hmw hnw, compare_natCast_add hm hn]

theorem compare_orderedBits_append {f : Binary.Format} {width a b : Nat}
    (hw : 2 * f.signBit = 256 ^ width) (ha : a < 256 ^ width) (hb : b < 256 ^ width)
    (r s : List UInt8) :
    compare (bigEndian width (orderedBits f a) ++ r) (bigEndian width (orderedBits f b) ++ s)
      = (compare (f.rank a) (f.rank b)).then (compare r s) := by
  rw [← hw] at ha hb
  have hma := orderedBits_lt ha
  have hmb := orderedBits_lt hb
  rw [hw] at hma hmb
  exact compare_shifted_append (natCast_orderedBits ha) (natCast_orderedBits hb) hma hmb r s

/-- Encoded values of one type compare in its order, and then by what follows. -/
theorem compare_encodeValue_append {p : Primitive} {a b : Value} {x y : List UInt8}
    (ha : encodeValue? p a = some x) (hb : encodeValue? p b = some y) (r s : List UInt8) :
    compare (x ++ r) (y ++ s)
      = ((a.widenTo p).order (b.widenTo p)).then (compare r s) := by
  have hta := isOf_widenTo ha
  have htb := isOf_widenTo hb
  rw [← encodeValue?_widenTo] at ha hb
  -- from here on both values are of the type itself
  generalize a.widenTo p = a at ha hta ⊢
  generalize b.widenTo p = b at hb htb ⊢
  cases hta with
  | int u =>
    cases htb with
    | int w =>
      cases ha
      cases hb
      have := u.le_toInt
      have := u.toInt_lt
      have := w.le_toInt
      have := w.toInt_lt
      exact compare_shifted_append (d := 2 ^ 31) (by omega) (by omega) (by omega) (by omega) r s
  | long u =>
    cases htb with
    | long w =>
      cases ha
      cases hb
      have := u.le_toInt
      have := u.toInt_lt
      have := w.le_toInt
      have := w.toInt_lt
      exact compare_shifted_append (d := 2 ^ 63) (by omega) (by omega) (by omega) (by omega) r s
  | float u =>
    cases htb with
    | float w =>
      cases ha
      cases hb
      exact compare_orderedBits_append rfl u.toNat_lt w.toNat_lt r s
  | double u =>
    cases htb with
    | double w =>
      cases ha
      cases hb
      exact compare_orderedBits_append rfl u.toNat_lt w.toNat_lt r s
  | string u =>
    cases htb with
    | string w =>
      cases ha
      cases hb
      exact compare_terminated_append _ _ r s
  | bytes u =>
    cases htb with
    | bytes w =>
      cases ha
      cases hb
      exact compare_terminated_append u w r s
  | bool u =>
    cases htb with
    | bool w =>
      cases ha
      cases hb
      cases u <;> cases w <;> rfl

/-- The order of a type tells its values apart. -/
theorem eq_of_order_eq {p : Primitive} {a b : Value} (ha : a.IsOf p) (hb : b.IsOf p)
    (h : a.order b = .eq) : a = b := by
  cases ha with
  | int u =>
    cases hb with
    | int w => rw [Int32.toInt_inj.1 (Int.compare_eq_eq.1 h)]
  | long u =>
    cases hb with
    | long w => rw [Int64.toInt_inj.1 (Int.compare_eq_eq.1 h)]
  | float u =>
    cases hb with
    | float w =>
      have hr := rank_injective (f := Binary.single) u.toNat_lt w.toNat_lt (Int.compare_eq_eq.1 h)
      rw [UInt32.toNat_inj.1 hr]
  | double u =>
    cases hb with
    | double w =>
      have hr := rank_injective (f := Binary.double) u.toNat_lt w.toNat_lt (Int.compare_eq_eq.1 h)
      rw [UInt64.toNat_inj.1 hr]
  | string u =>
    cases hb with
    | string w => rw [Text.utf8Bytes_injective (Std.compare_eq_iff_eq.1 h)]
  | bytes u =>
    cases hb with
    | bytes w => rw [Std.compare_eq_iff_eq.1 h]
  | bool u =>
    cases hb with
    | bool w => rw [Std.compare_eq_iff_eq.1 h]

/-! ## Fields -/

/-- What is written of a field that is accepted: a zero for null, or a one and the value. -/
theorem encodeField?_cases {p : Primitive} {v : Value} {x : List UInt8}
    (h : encodeField? p v = some x) :
    (v = .null ∧ x = [0]) ∨ ∃ y, encodeValue? p v = some y ∧ x = 1 :: y := by
  cases v with
  | null => exact .inl ⟨rfl, (Option.some.inj h).symm⟩
  | _ =>
    obtain ⟨y, hy, rfl⟩ := Option.map_eq_some_iff.1 h
    exact .inr ⟨y, hy, rfl⟩

theorem encodeField?_widenTo (p : Primitive) (v : Value) :
    encodeField? p (v.widenTo p) = encodeField? p v := by
  have hnull : (v.widenTo p).isNull = v.isNull := by
    cases p <;> cases v <;> rfl
  rw [encodeField?, encodeField?, encodeValue?_widenTo, presence, presence, hnull]

theorem widenTo_null (p : Primitive) : Value.null.widenTo p = .null := by
  cases p <;> rfl

theorem order_null_of_isOf {p : Primitive} {v : Value} (h : v.IsOf p) :
    Value.null.order v = .lt ∧ v.order .null = .gt := by
  cases h <;> exact ⟨rfl, rfl⟩

/-- Encoded fields of one type compare as their values, null first, and then by what follows. -/
theorem compare_encodeField_append {p : Primitive} {a b : Value} {x y : List UInt8}
    (ha : encodeField? p a = some x) (hb : encodeField? p b = some y) (r s : List UInt8) :
    compare (x ++ r) (y ++ s)
      = ((a.widenTo p).order (b.widenTo p)).then (compare r s) := by
  -- the byte that tells null decides, unless it is the same on both sides
  rcases encodeField?_cases ha with ⟨rfl, rfl⟩ | ⟨x, hx, rfl⟩
  · rw [widenTo_null]
    rcases encodeField?_cases hb with ⟨rfl, rfl⟩ | ⟨y, hy, rfl⟩
    · rw [widenTo_null]
      rfl
    · rw [(order_null_of_isOf (isOf_widenTo hy)).1]
      rfl
  · rcases encodeField?_cases hb with ⟨rfl, rfl⟩ | ⟨y, hy, rfl⟩
    · rw [widenTo_null, (order_null_of_isOf (isOf_widenTo hx)).2]
      rfl
    · exact compare_encodeValue_append hx hy r s

/-- Accepted fields that stand at one place in the order count as the same value. -/
theorem widenTo_eq_of_order_eq {p : Primitive} {a b : Value} {x y : List UInt8}
    (ha : encodeField? p a = some x) (hb : encodeField? p b = some y)
    (h : (a.widenTo p).order (b.widenTo p) = .eq) : a.widenTo p = b.widenTo p := by
  rcases encodeField?_cases ha with ⟨rfl, rfl⟩ | ⟨x, hx, rfl⟩
  · rw [widenTo_null] at h ⊢
    rcases encodeField?_cases hb with ⟨rfl, rfl⟩ | ⟨y, hy, rfl⟩
    · rw [widenTo_null]
    · rw [(order_null_of_isOf (isOf_widenTo hy)).1] at h
      cases h
  · rcases encodeField?_cases hb with ⟨rfl, rfl⟩ | ⟨y, hy, rfl⟩
    · rw [widenTo_null, (order_null_of_isOf (isOf_widenTo hx)).2] at h
      cases h
    · exact eq_of_order_eq (isOf_widenTo hx) (isOf_widenTo hy) h

/-- Fields that count as the same value are written in the same way. -/
theorem encodeField?_congr {p : Primitive} {a b : Value} {x y : List UInt8}
    (ha : encodeField? p a = some x) (hb : encodeField? p b = some y)
    (h : a.widenTo p = b.widenTo p) : x = y := by
  rw [← encodeField?_widenTo, h, encodeField?_widenTo, hb] at ha
  exact (Option.some.inj ha).symm

/-- Where a field ends is settled by its own bytes: some bytes begin with one field at most. -/
theorem eq_of_encodeField_append_eq {p : Primitive} {a b : Value} {x y r s : List UInt8}
    (ha : encodeField? p a = some x) (hb : encodeField? p b = some y) (h : x ++ r = y ++ s) :
    x = y ∧ r = s := by
  have hequal := compare_encodeField_append ha hb r s
  rw [h, Std.ReflOrd.compare_self] at hequal
  obtain ⟨-, hrest⟩ := Ordering.then_eq_eq.1 hequal.symm
  obtain rfl := Std.compare_eq_iff_eq.1 hrest
  exact ⟨List.append_cancel_right h, rfl⟩

/-- Encoded fields of one type delimit themselves. Whatever follows them, the values decide first
and what follows decides where these do not differ, which is where the two are written in the same
way. No field is the beginning of another one, and bytes can be cut behind a field at the front of
them in one way only. -/
theorem encodeField?_delimits_itself {p : Primitive} {a b : Value} {x y : List UInt8}
    (ha : encodeField? p a = some x) (hb : encodeField? p b = some y) :
    (∀ r s, compare (x ++ r) (y ++ s)
        = ((a.widenTo p).order (b.widenTo p)).then (compare r s))
      ∧ ((a.widenTo p).order (b.widenTo p) = .eq ↔ x = y)
      ∧ (x <+: y → x = y)
      ∧ ∀ r s, x ++ r = y ++ s → x = y ∧ r = s := by
  refine ⟨compare_encodeField_append ha hb, ⟨fun h => ?_, fun h => ?_⟩, ?_, ?_⟩
  · exact encodeField?_congr ha hb (widenTo_eq_of_order_eq ha hb h)
  · have hsame := compare_encodeField_append ha hb [] []
    rw [h, Std.ReflOrd.compare_self] at hsame
    exact (Ordering.then_eq_eq.1 hsame.symm).1
  · rintro ⟨r, hr⟩
    exact (eq_of_encodeField_append_eq ha hb (hr.trans (List.append_nil y).symm)).1
  · exact fun r s => eq_of_encodeField_append_eq ha hb

/-- Bytes that end against a zero in the other ones, with the greater bytes behind them. -/
theorem encodeField?_delimits_itself_embeddedZero :
    encodeField? .bytes (.bytes [97]) = some [1, 97, 0, 0]
      ∧ encodeField? .bytes (.bytes [97, 0]) = some [1, 97, 0, 255, 0, 0]
      ∧ compare ([1, 97, 0, 0] ++ [255, 255] : List UInt8) ([1, 97, 0, 255, 0, 0] ++ [0]) = .lt
      ∧ ¬ ([1, 97, 0, 0] : List UInt8) <+: [1, 97, 0, 255, 0, 0] := by
  have hshort : encodeField? .bytes (.bytes [97]) = some [1, 97, 0, 0] := rfl
  have hlong : encodeField? .bytes (.bytes [97, 0]) = some [1, 97, 0, 255, 0, 0] := rfl
  obtain ⟨hcompare, -, hbegins, -⟩ := encodeField?_delimits_itself hshort hlong
  refine ⟨hshort, hlong, ?_, fun h => absurd (hbegins h) (by decide)⟩
  rw [hcompare]
  rfl

end RowKey

end TableScan
