import TableScan.Proofs.Binary.Decimals
import TableScan.Proofs.Json.Values

/-!
# Written values are readable

Whatever stands in a value, its text is refused for one reason alone: it is too deep. A number that
was written is always in range when it is read (`Spelling.isSome_ofMagnitude`), though it need not
be the same number. So a value is read back, as some value, exactly if fewer arrays and objects
enclose each other in it than a reader allows (`isSome_parse?_render_iff`). The integers have to fit
a word, or else they would be read as floating-point numbers of any size.
-/

namespace TableScan.Json

open Binary (double ofScientific)

/-! ## Digits that are read -/

namespace Syntax

/-- Digits behind a number are less than one unit of it. -/
theorem foldl_digits_lt {digits : List Nat} (h : ∀ d ∈ digits, d < 10) (n : Nat) :
    digits.foldl (fun n d => n * 10 + d) n < (n + 1) * 10 ^ digits.length := by
  induction digits generalizing n with
  | nil => simp
  | cons d digits ih =>
    obtain ⟨hd, hdigits⟩ := List.forall_mem_cons.1 h
    rw [List.foldl_cons, List.length_cons, Nat.pow_succ', ← Nat.mul_assoc]
    exact Nat.lt_of_lt_of_le (ih hdigits _) (Nat.mul_le_mul_right _ (by omega))

/-- The number of some digits is less than the power of ten for as many. -/
theorem natOfDigits_lt {digits : List Nat} (h : ∀ d ∈ digits, d < 10) :
    natOfDigits digits < 10 ^ digits.length := by
  have hlt := foldl_digits_lt h 0
  rwa [Nat.zero_add, Nat.one_mul] at hlt

/-- A digit is less than ten. -/
theorem digitValue_lt {c : Char} (h : c.isDigit = true) : digitValue c < 10 := by
  obtain ⟨-, hle⟩ := Char.isDigit_iff_toNat.1 h
  have hnine : '9'.toNat = 57 := rfl
  unfold digitValue
  omega

end Syntax

namespace Numeral

open Syntax (natOfDigits)

/-- Digits behind a number make it no less than zeros do. -/
theorem mul_pow_le_foldl (n : Nat) (digits : List Nat) :
    n * 10 ^ digits.length ≤ digits.foldl (fun n d => n * 10 + d) n := by
  induction digits generalizing n with
  | nil => simp
  | cons d digits ih =>
    rw [List.foldl_cons, List.length_cons, Nat.pow_succ', ← Nat.mul_assoc]
    exact Nat.le_trans (Nat.mul_le_mul_right _ (Nat.le_add_right _ d)) (ih _)

/-- What is read of some digits is at most their number, also with zeros in place of those that no
longer fit. -/
theorem extend_mul_pow_le (n : Nat) (digits : List Nat) :
    (extend n digits).1 * 10 ^ (extend n digits).2.length
      ≤ digits.foldl (fun n d => n * 10 + d) n := by
  induction digits generalizing n with
  | nil => simp [extend]
  | cons d digits ih =>
    rw [extend]
    -- where the next digit still fits it is read; from the first one that does not, zeros are put
    split
    · exact ih _
    · exact mul_pow_le_foldl n (d :: digits)

/-- No more digits are left than there were. -/
theorem length_extend_le (n : Nat) (digits : List Nat) :
    (extend n digits).2.length ≤ digits.length := by
  induction digits generalizing n with
  | nil => simp [extend]
  | cons d digits ih =>
    rw [extend]
    split
    · exact Nat.le_succ_of_le (ih _)
    · exact Nat.le_refl _

/-- What is read fits a word. -/
theorem extend_lt {n : Nat} (h : n < wordBound) (digits : List Nat) :
    (extend n digits).1 < wordBound := by
  induction digits generalizing n with
  | nil => exact h
  | cons d digits ih =>
    rw [extend]
    split
    · next hlt => exact ih hlt
    · exact h

/-- A numeral whose digits before the point fit a word is a number if what is read of the other
digits is in range. -/
theorem isSome_toNumber? (negative : Bool) {integer fraction : List Nat} {exponent : Option Int}
    (hfits : natOfDigits integer < wordBound)
    (h : (ofScientific (extend (natOfDigits integer) fraction).1 (exponent.getD 0
      - (fraction.length - (extend (natOfDigits integer) fraction).2.length : Nat))).isSome) :
    (Numeral.mk negative integer fraction exponent).toNumber?.isSome := by
  have hwhole : extend 0 integer = (natOfDigits integer, []) := extend_of_lt hfits
  have hdouble : (Numeral.mk negative integer fraction exponent).toDouble?.isSome := by
    unfold toDouble?
    simp only [hwhole, List.length_nil, Option.isSome_map]
    rwa [Int.natCast_zero, Int.zero_sub, Int.add_comm, ← Int.sub_eq_add_neg]
  -- an integer that fits is a number anyway; all others are read as doubles
  unfold toNumber?
  simp only
  split
  · split
    · rfl
    · split
      · rfl
      · exact hdouble
  · exact hdouble

end Numeral

/-! ## Numbers that were written -/

namespace Spelling

open Syntax Numeral

/-- Without a power of ten above the point a number that fits a word is in range. -/
theorem isSome_ofScientific_of_nonpos {a : Nat} (ha : a < wordBound) {e : Int} (he : e ≤ 0) :
    (ofScientific a e).isSome := by
  cases e with
  | negSucc k => rfl
  | ofNat k =>
    obtain rfl : k = 0 := by
      have hk : (k : Int) ≤ 0 := he
      omega
    refine Binary.isSome_ofScientific_of_le (Nat.le_of_lt ?_)
    rw [Nat.pow_zero, Nat.mul_one]
    exact Nat.lt_of_lt_of_le ha (by decide +kernel)

/-- A decimal without an exponent and with few digits before the point is in range. -/
theorem isSome_positional (negative : Bool) {digits : List Char}
    (hdigits : ∀ c ∈ digits, c.isDigit = true) {point : Int} (hpoint : point ≤ 16) :
    (positional negative digits point).numeral.toNumber?.isSome := by
  -- with at most sixteen digits before the point these fit a word
  have hlength : ∀ (integer fraction : List Char), integer.length ≤ 16 →
      (∀ c ∈ integer, c.isDigit = true) →
      (numeral ⟨negative, integer, fraction, none⟩).toNumber?.isSome := by
    intro integer fraction hlength hinteger
    have hlt : natOfDigits (integer.map digitValue) < 10 ^ integer.length := by
      have hdigits : ∀ d ∈ integer.map digitValue, d < 10 :=
        List.forall_mem_map.2 fun c hc => digitValue_lt (hinteger c hc)
      have hlt := natOfDigits_lt hdigits
      rwa [List.length_map] at hlt
    have hfits : natOfDigits (integer.map digitValue) < wordBound :=
      Nat.lt_of_lt_of_le hlt
        (Nat.le_trans (Nat.pow_le_pow_right (by decide) hlength) (by decide))
    refine isSome_toNumber? negative hfits (isSome_ofScientific_of_nonpos (extend_lt hfits _) ?_)
    show (0 : Int) - _ ≤ 0
    omega
  unfold positional
  split
  · exact hlength ['0'] _ (by decide) (by simp)
  · refine hlength _ _ ?_ ?_
    · rw [List.length_append, List.length_take, List.length_replicate]
      omega
    · intro c hc
      rcases List.mem_append.1 hc with hc | hc
      · exact hdigits c (List.mem_of_mem_take hc)
      · rw [List.eq_of_mem_replicate hc]
        rfl

/-- An exponent is read back from its digits and its sign. -/
theorem exponentValue_toDigits (e : Int) :
    exponentValue (some (decide (e < 0), Nat.toDigits 10 e.natAbs)) = some e := by
  unfold exponentValue
  simp only [natOfDigits_toDigits]
  split
  · next h =>
    have hneg := of_decide_eq_true h
    congr 1
    omega
  · next h =>
    have hneg := of_decide_eq_false (Bool.not_eq_true _ ▸ h)
    congr 1
    omega

/-- The numeral of a decimal in scientific form. -/
theorem numeral_scientific (negative : Bool) (c : Char) (rest : List Char) (e : Int) :
    (scientific negative (c :: rest) e).numeral
      = ⟨negative, [digitValue c], rest.map digitValue, some e⟩ := by
  unfold scientific numeral
  simp only [exponentValue_toDigits]
  rfl

/-- What is read of a decimal in scientific form is cut from it. -/
theorem isSome_scientific (negative : Bool) {d : Binary.Decimal}
    (h : ∀ a e, d.IsCutTo a e → (ofScientific a e).isSome) :
    (scientific negative (Nat.toDigits 10 d.digits)
      (d.exponent + (Nat.toDigits 10 d.digits).length - 1)).numeral.toNumber?.isSome := by
  have hdigits := isDigit_toDigits d.digits
  have hvalue := natOfDigits_toDigits d.digits
  have hne : Nat.toDigits 10 d.digits ≠ [] := Nat.toDigits_ne_nil
  generalize Nat.toDigits 10 d.digits = digits at hdigits hvalue hne ⊢
  obtain ⟨c, rest, rfl⟩ := List.exists_cons_of_ne_nil hne
  obtain ⟨hc, -⟩ := List.forall_mem_cons.1 hdigits
  have hfirst : natOfDigits [digitValue c] = digitValue c := by simp [natOfDigits]
  have hfits : natOfDigits [digitValue c] < wordBound := by
    rw [hfirst]
    exact Nat.lt_trans (digitValue_lt hc) (by decide)
  rw [numeral_scientific]
  refine isSome_toNumber? negative hfits ?_
  -- what does not fit a word is cut off, so that less than the decimal is read
  have hcut := extend_mul_pow_le (natOfDigits [digitValue c]) (rest.map digitValue)
  have hleft := length_extend_le (natOfDigits [digitValue c]) (rest.map digitValue)
  refine h _ _ ⟨_, Nat.le_trans hcut ?_, ?_⟩
  · rw [← hvalue]
    exact Nat.le_refl _
  · rw [Option.getD_some, List.length_cons]
    rw [List.length_map] at hleft ⊢
    omega

/-- A finite magnitude that was written is read as some number. -/
theorem isSome_ofMagnitude (negative : Bool) {m : Nat} (hm : m < double.infinity) :
    (ofMagnitude negative m).numeral.toNumber?.isSome := by
  unfold ofMagnitude
  split
  · have hzero : ∀ c ∈ ['0'], c.isDigit = true := by simp
    exact isSome_positional negative hzero (show (1 : Int) ≤ 16 by decide)
  · simp only
    split
    · next hplain =>
      have hpoint := of_decide_eq_true (Bool.and_eq_true_iff.1 hplain).2
      refine isSome_positional negative (isDigit_toDigits _) ?_
      have hgreatest : plainExponents.2 = 15 := rfl
      omega
    · exact isSome_scientific negative fun a e => Binary.isSome_ofScientific hm

end Spelling

/-! ## Values that were written -/

mutual

/-- Holds of values in which all integers fit a word. -/
def IntegersFit : Json → Prop
  | .number (.int n) => -(2 ^ 63) ≤ n ∧ n < 2 ^ 64
  | .array items => ItemsIntegersFit items
  | .object members => MembersIntegersFit members
  | _ => True

/-- The same of items. -/
def ItemsIntegersFit : List Json → Prop
  | [] => True
  | j :: rest => IntegersFit j ∧ ItemsIntegersFit rest

/-- The same of members. -/
def MembersIntegersFit : List (String × Json) → Prop
  | [] => True
  | (_, j) :: rest => IntegersFit j ∧ MembersIntegersFit rest

end

open Syntax (toValue? toValues? toMembers?)

/-- A double is read back as some number, if it is written as one at all. -/
theorem isSome_toValue?_double (bits : UInt64) (room : Nat) :
    (toValue? room (Json.number (.double bits)).tree).isSome := by
  rw [tree]
  cases hs : (Number.double bits).spelling? with
  | none => rfl
  | some s =>
    show (s.numeral.toNumber?.map Json.number).isSome
    rw [Option.isSome_map]
    unfold Number.spelling? at hs
    simp only at hs
    split at hs
    · next hm =>
      obtain rfl := Option.some.inj hs
      exact Spelling.isSome_ofMagnitude _ hm
    · cases hs

mutual

/-- A value that was written is refused just if it is too deep. -/
theorem isSome_toValue?_tree_iff (j : Json) (hfit : j.IntegersFit) {room : Nat} (hroom : 0 < room) :
    (toValue? room j.tree).isSome ↔ j.depth < room := by
  -- along the value; each array and each object takes one level of the room
  cases j with
  | null => exact ⟨fun _ => hroom, fun _ => rfl⟩
  | bool b => exact ⟨fun _ => hroom, fun _ => rfl⟩
  | number n =>
    refine ⟨fun _ => hroom, fun hdepth => ?_⟩
    cases n with
    | int n => rw [toValue?_tree (.number (.int n)) hfit hdepth, Option.isSome_some]
    | double bits => exact isSome_toValue?_double bits room
  | string s => exact ⟨fun _ => hroom, fun _ => rfl⟩
  | array items =>
    rw [tree, toValue?, depth]
    split
    · simp only [Option.isSome_none, Bool.false_eq_true, false_iff]
      omega
    · rw [Option.isSome_map, isSome_toValues?_trees_iff items hfit (by omega)]
      omega
  | object members =>
    rw [tree, toValue?, depth]
    split
    · simp only [Option.isSome_none, Bool.false_eq_true, false_iff]
      omega
    · rw [Option.isSome_map, isSome_toMembers?_memberTrees_iff members hfit (by omega)]
      omega

/-- Items are refused just if one of them is too deep. -/
theorem isSome_toValues?_trees_iff (items : List Json) (hfit : ItemsIntegersFit items) {room : Nat}
    (hroom : 0 < room) : (toValues? room (trees items)).isSome ↔ itemsDepth items < room := by
  cases items with
  | nil => exact ⟨fun _ => hroom, fun _ => rfl⟩
  | cons j rest =>
    obtain ⟨hj, hrest⟩ := hfit
    have hfirst := isSome_toValue?_tree_iff j hj hroom
    have hothers := isSome_toValues?_trees_iff rest hrest hroom
    rw [trees, toValues?, itemsDepth, Nat.max_lt, ← hfirst, ← hothers]
    cases toValue? room j.tree with
    | none => simp
    | some v =>
      cases toValues? room (trees rest) with
      | none => simp
      | some vs => simp

/-- Members are refused just if one of them is too deep. -/
theorem isSome_toMembers?_memberTrees_iff (members : List (String × Json))
    (hfit : MembersIntegersFit members) {room : Nat} (hroom : 0 < room) :
    (toMembers? room (memberTrees members)).isSome ↔ membersDepth members < room := by
  cases members with
  | nil => exact ⟨fun _ => hroom, fun _ => rfl⟩
  | cons m rest =>
    obtain ⟨key, j⟩ := m
    obtain ⟨hj, hrest⟩ := hfit
    have hfirst := isSome_toValue?_tree_iff j hj hroom
    have hothers := isSome_toMembers?_memberTrees_iff rest hrest hroom
    rw [memberTrees, toMembers?, membersDepth, Nat.max_lt, ← hfirst, ← hothers]
    cases toValue? room j.tree with
    | none => simp
    | some v =>
      cases toMembers? room (memberTrees rest) with
      | none => simp
      | some vs => simp

end

/-- The text of a value is read, as some value, exactly if the value is not too deep. -/
theorem isSome_parse?_render_iff {j : Json} (hfit : j.IntegersFit) :
    (parse? j.render).isSome ↔ j.depth < depthLimit := by
  rw [parse?_render_eq]
  exact isSome_toValue?_tree_iff j hfit (by decide)

end TableScan.Json
