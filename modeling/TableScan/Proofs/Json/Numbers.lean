import Mathlib.Tactic.IntervalCases
import TableScan.Json.Syntax

/-!
# Written numbers read back

A number is written as some digits, a fraction and an exponent, of which the last two may be missing
(`Spelling`). Every text of this form is scanned as the numeral of its digits, up to a character
that could not belong to a number (`scanNumber_chars`), and the text of every number that JSON can
spell is of this form (`Number.chars_eq`).
-/

namespace TableScan.Json

open Text (Scan)

namespace Syntax

/-- `Reads x value rest`: a scanner gave a value and stopped at a rest. -/
def Reads {cs : List Char} {α : Type} (x : Option (Scan cs α)) (value : α)
    (rest : List Char) : Prop :=
  ∃ s, x = some s ∧ s.value = value ∧ s.rest = rest

namespace Reads

variable {cs ds : List Char} {α β : Type} {x : Option (Scan cs α)} {value : α} {rest : List Char}

/-- A scanner that read something has answered it, with some proof that the rest is shorter. -/
theorem eq_some (h : Reads x value rest) : ∃ lt, x = some ⟨value, rest, lt⟩ := by
  obtain ⟨⟨_, _, lt⟩, hx, rfl, rfl⟩ := h
  exact ⟨lt, hx⟩

/-- A scanner that goes on with the result of another one. -/
theorem map_lift (h : Reads x value rest) (g : α → β) (hle : cs.length ≤ ds.length) :
    Reads (x.map fun s => (s.map g).lift hle) (g value) rest := by
  obtain ⟨s, rfl, rfl, rfl⟩ := h
  exact ⟨_, rfl, rfl, rfl⟩

/-- The same scanner in front of more characters. -/
theorem lift (h : Reads x value rest) (hle : cs.length ≤ ds.length) :
    Reads (x.map (Scan.lift hle)) value rest := by
  obtain ⟨s, rfl, rfl, rfl⟩ := h
  exact ⟨_, rfl, rfl, rfl⟩

end Reads

/-! ## Digits -/

/-- The value of a decimal digit. -/
def digitValue (c : Char) : Nat := c.toNat - 48

/-- Holds of a rest that goes on with no digit. -/
def EndsDigits (rest : List Char) : Prop := ∀ c ∈ rest.head?, c.isDigit = false

/-- Digits are scanned up to what is no digit. -/
theorem scanDigits_append {digits rest : List Char} (hdigits : ∀ c ∈ digits, c.isDigit = true)
    (hrest : EndsDigits rest) :
    scanDigits (digits ++ rest) = (digits.map digitValue, rest) := by
  induction digits with
  | nil =>
    cases rest with
    | nil => rfl
    | cons c rest =>
      have hc : c.isDigit = false := hrest c rfl
      simp [scanDigits, hc]
  | cons c digits ih =>
    obtain ⟨hc, htail⟩ := List.forall_mem_cons.1 hdigits
    rw [List.cons_append, scanDigits, if_pos hc, ih htail]
    rfl

/-- Digits in base ten spell their number. -/
theorem natOfDigits_toDigits (n : Nat) :
    natOfDigits ((Nat.toDigits 10 n).map digitValue) = n := by
  -- the fold over values is the fold over digits that the library has
  have hfold : natOfDigits ((Nat.toDigits 10 n).map digitValue)
      = Nat.ofDigitChars 10 (Nat.toDigits 10 n) 0 := by
    rw [natOfDigits, List.foldl_map, Nat.ofDigitChars_eq_foldl]
    congr 1
    funext m c
    rw [Nat.mul_comm]
    rfl
  rw [hfold, Nat.ofDigitChars_ten_toDigits]

/-- A number in base ten is written with digits. -/
theorem isDigit_toDigits (n : Nat) : ∀ c ∈ Nat.toDigits 10 n, c.isDigit = true :=
  fun _ hc => Nat.isDigit_of_mem_toDigits (by decide) (by decide) hc

/-- The digits of a number other than zero do not start with a zero. -/
theorem exists_toDigits_eq_cons {n : Nat} (h : n ≠ 0) :
    ∃ c digits, Nat.toDigits 10 n = c :: digits ∧ c.isDigit = true ∧ digitValue c ≠ 0 := by
  -- on the number: the first digit is the one of the number without its last digit
  induction n using Nat.strong_induction_on with
  | _ n ih =>
    rcases Nat.lt_or_ge n 10 with hlt | hge
    · refine ⟨n.digitChar, [], Nat.toDigits_of_lt_base hlt, ?_⟩
      interval_cases n <;> first | exact absurd rfl h | decide
    · obtain ⟨c, digits, heq, hc, hne⟩ := ih (n / 10) (by omega) (by omega)
      refine ⟨c, digits ++ [(n % 10).digitChar], ?_, hc, hne⟩
      rw [Nat.toDigits_of_base_le (by decide) hge, heq]
      rfl

/-- The digits of a number have no zero in front, unless the number is zero. -/
theorem isWhole_toDigits (n : Nat) :
    isWhole ((Nat.toDigits 10 n).map digitValue) = true := by
  by_cases hn : n = 0
  · rw [hn]
    rfl
  · obtain ⟨c, digits, heq, -, hne⟩ := exists_toDigits_eq_cons hn
    rw [heq]
    cases digits with
    | nil => rfl
    | cons d digits =>
      show (digitValue c != 0) = true
      simpa using hne

end Syntax

/-! ## Spellings -/

open Syntax

/-- The characters of a number: the digits before the point and behind it, and the exponent with its
sign. -/
structure Spelling where
  negative : Bool
  integer : List Char
  fraction : List Char
  exponent : Option (Bool × List Char)

namespace Spelling

/-- The sign of a negative number; others are written without. -/
def signChars (negative : Bool) : List Char := if negative then ['-'] else []

/-- The point and the digits behind it, if there are any. -/
def fractionChars (fraction : List Char) : List Char :=
  if fraction.isEmpty then [] else '.' :: fraction

/-- The exponent with its letter and its sign, if there is one. -/
def exponentChars : Option (Bool × List Char) → List Char
  | none => []
  | some (negative, digits) => 'e' :: (if negative then '-' else '+') :: digits

/-- The text of a spelling. -/
def chars (s : Spelling) : List Char :=
  signChars s.negative ++ (s.integer ++ (fractionChars s.fraction ++ exponentChars s.exponent))

/-- The exponent as an integer. -/
def exponentValue : Option (Bool × List Char) → Option Int
  | none => none
  | some (negative, digits) =>
    let n : Int := natOfDigits (digits.map digitValue)
    some (if negative then -n else n)

/-- What a spelling is scanned as. -/
def numeral (s : Spelling) : Numeral :=
  ⟨s.negative, s.integer.map digitValue, s.fraction.map digitValue, exponentValue s.exponent⟩

/-- What the grammar asks of a number. -/
structure IsNumber (s : Spelling) : Prop where
  whole : isWhole (s.integer.map digitValue) = true
  integer : ∀ c ∈ s.integer, c.isDigit = true
  fraction : ∀ c ∈ s.fraction, c.isDigit = true
  exponent : ∀ e ∈ s.exponent, e.2 ≠ [] ∧ ∀ c ∈ e.2, c.isDigit = true

end Spelling

/-- A number starts with a digit or with its sign. -/
theorem Spelling.IsNumber.exists_chars_eq_cons {s : Spelling} (h : s.IsNumber) :
    ∃ c cs, s.chars = c :: cs ∧ (c.isDigit = true ∨ c = '-') := by
  obtain ⟨negative, integer, fraction, exponent⟩ := s
  cases negative with
  | true => exact ⟨'-', _, rfl, .inr rfl⟩
  | false =>
    cases integer with
    | nil => exact absurd h.whole Bool.false_ne_true
    | cons c integer => exact ⟨c, _, rfl, .inl (h.integer c List.mem_cons_self)⟩

namespace Syntax

/-- Holds of a rest in front of which a number ends. -/
def EndsNumber (rest : List Char) : Prop :=
  ∀ c ∈ rest.head?, c.isDigit = false ∧ c ≠ '.' ∧ c ≠ 'e' ∧ c ≠ 'E'

/-- Where a number ends no digit goes on. -/
theorem EndsNumber.endsDigits {rest : List Char} (h : EndsNumber rest) : EndsDigits rest :=
  fun c hc => (h c hc).1

/-- An exponent is scanned up to the end of the number, and none where there is none. -/
theorem scanExponent_chars {exponent : Option (Bool × List Char)} {rest : List Char}
    (h : ∀ e ∈ exponent, e.2 ≠ [] ∧ ∀ c ∈ e.2, c.isDigit = true) (hrest : EndsNumber rest) :
    scanExponent (Spelling.exponentChars exponent ++ rest)
      = some (Spelling.exponentValue exponent, rest) := by
  cases exponent with
  | none =>
    cases rest with
    | nil => rfl
    | cons c rest =>
      obtain ⟨-, -, he, hE⟩ := hrest c rfl
      show scanExponent (c :: rest) = some (none, c :: rest)
      rw [scanExponent, if_neg (by simp [he, hE])]
  | some e =>
    obtain ⟨negative, digits⟩ := e
    obtain ⟨hne, hdigits⟩ := h _ rfl
    have hscan := scanDigits_append hdigits hrest.endsDigits
    -- an exponent without digits would be refused
    have hsome : (digits.map digitValue).isEmpty = false := by simpa using hne
    cases negative with
    | true =>
      show scanExponent ('e' :: '-' :: (digits ++ rest)) = _
      simp only [scanExponent, scanSign, hscan, hsome]
      rfl
    | false =>
      show scanExponent ('e' :: '+' :: (digits ++ rest)) = _
      simp only [scanExponent, scanSign, hscan, hsome]
      rfl

/-- No digit comes first in an exponent, nor does a point. -/
theorem head_exponentChars {exponent : Option (Bool × List Char)} {rest : List Char}
    (hrest : EndsNumber rest) :
    ∀ c ∈ (Spelling.exponentChars exponent ++ rest).head?, c.isDigit = false ∧ c ≠ '.' := by
  cases exponent with
  | none => exact fun c hc => ⟨(hrest c hc).1, (hrest c hc).2.1⟩
  | some e =>
    intro c hc
    obtain rfl : 'e' = c := Option.some.inj hc
    decide

/-- A fraction is scanned up to what is neither a digit nor another point. -/
theorem scanFraction_chars {fraction rest : List Char} (h : ∀ c ∈ fraction, c.isDigit = true)
    (hrest : ∀ c ∈ rest.head?, c.isDigit = false ∧ c ≠ '.') :
    scanFraction (Spelling.fractionChars fraction ++ rest)
      = some (fraction.map digitValue, rest) := by
  cases fraction with
  | nil =>
    show scanFraction rest = some ([], rest)
    cases rest with
    | nil => rfl
    | cons c rest =>
      have hc := (hrest c rfl).2
      unfold scanFraction
      split
      · next heq => exact absurd (List.cons.inj heq).1 hc
      · rfl
  | cons d fraction =>
    have hscan := scanDigits_append h fun c hc => (hrest c hc).1
    show scanFraction ('.' :: ((d :: fraction) ++ rest)) = _
    simp only [scanFraction, hscan]
    rfl

/-- No digit comes first behind the digits before the point. -/
theorem endsDigits_fractionChars {fraction rest : List Char}
    (hrest : ∀ c ∈ rest.head?, c.isDigit = false ∧ c ≠ '.') :
    EndsDigits (Spelling.fractionChars fraction ++ rest) := by
  cases fraction with
  | nil => exact fun c hc => (hrest c hc).1
  | cons d fraction =>
    intro c hc
    obtain rfl : '.' = c := Option.some.inj hc
    decide

/-- The three parts of a number are scanned one after another. -/
theorem scanUnsigned_chars {s : Spelling} (h : s.IsNumber) {rest : List Char}
    (hrest : EndsNumber rest) :
    Reads (scanUnsigned s.negative
        (s.integer ++ (Spelling.fractionChars s.fraction ++ Spelling.exponentChars s.exponent)
          ++ rest))
      s.numeral rest := by
  have hexponent : ∀ c ∈ (Spelling.exponentChars s.exponent ++ rest).head?,
      c.isDigit = false ∧ c ≠ '.' := head_exponentChars hrest
  -- each part ends where the next one begins
  have hdigits : scanDigits (s.integer
      ++ (Spelling.fractionChars s.fraction ++ Spelling.exponentChars s.exponent) ++ rest)
      = (s.integer.map digitValue,
        Spelling.fractionChars s.fraction ++ (Spelling.exponentChars s.exponent ++ rest)) := by
    rw [List.append_assoc, List.append_assoc]
    exact scanDigits_append h.integer (endsDigits_fractionChars hexponent)
  have hfraction := scanFraction_chars h.fraction hexponent
  have hexp := scanExponent_chars h.exponent hrest
  unfold scanUnsigned
  generalize hcs : s.integer
    ++ (Spelling.fractionChars s.fraction ++ Spelling.exponentChars s.exponent) ++ rest = cs
    at hdigits
  rw [dif_pos (by rw [hdigits]; exact h.whole)]
  split
  · next hnone =>
    rw [hdigits, hfraction] at hnone
    cases hnone
  · next fraction r hf =>
    rw [hdigits, hfraction] at hf
    obtain ⟨rfl, rfl⟩ := Prod.mk.inj (Option.some.inj hf)
    split
    · next hnone =>
      rw [hexp] at hnone
      cases hnone
    · next exponent r he =>
      rw [hexp] at he
      obtain ⟨rfl, rfl⟩ := Prod.mk.inj (Option.some.inj he)
      refine ⟨_, rfl, ?_, rfl⟩
      show Numeral.mk s.negative (scanDigits cs).1 _ _ = _
      rw [hdigits]
      rfl

/-- Without a sign in front a number is not negative. -/
theorem scanNumber_cons_of_ne {c : Char} (h : c ≠ '-') (cs : List Char) :
    scanNumber (c :: cs) = scanUnsigned false (c :: cs) := by
  rw [scanNumber]
  intro r heq
  exact h (List.cons.inj heq).1

/-- A number is scanned as its numeral, up to a character that could not belong to it. -/
theorem scanNumber_chars {s : Spelling} (h : s.IsNumber) {rest : List Char}
    (hrest : EndsNumber rest) : Reads (scanNumber (s.chars ++ rest)) s.numeral rest := by
  have hscan := scanUnsigned_chars h hrest
  obtain ⟨negative, integer, fraction, exponent⟩ := s
  cases negative with
  | true => exact hscan.lift (Nat.le_succ _)
  | false =>
    -- without a sign the first character is a digit
    cases integer with
    | nil => exact absurd h.whole Bool.false_ne_true
    | cons c integer =>
      have hc : c ≠ '-' := by
        rintro rfl
        exact absurd (h.integer '-' List.mem_cons_self) (by decide)
      show Reads (scanNumber (c :: _)) _ _
      rw [scanNumber_cons_of_ne hc]
      exact hscan

end Syntax

/-! ## Texts of numbers -/

namespace Spelling

/-- A decimal without an exponent part. -/
def positional (negative : Bool) (digits : List Char) (point : Int) : Spelling :=
  if point ≤ 0 then ⟨negative, ['0'], List.replicate (-point).toNat '0' ++ digits, none⟩
  else
    let fraction := digits.drop point.toNat
    ⟨negative, digits.take point.toNat ++ List.replicate (point.toNat - digits.length) '0',
      if fraction.isEmpty then ['0'] else fraction, none⟩

/-- A decimal with one digit before the point. -/
def scientific (negative : Bool) (digits : List Char) (exponent : Int) : Spelling :=
  ⟨negative, digits.take 1, digits.drop 1,
    some (decide (exponent < 0), Nat.toDigits 10 exponent.natAbs)⟩

/-- The spelling of a decimal without an exponent has the characters that are written for it. -/
theorem chars_positional (negative : Bool) {digits : List Char} (hne : digits ≠ [])
    (point : Int) :
    (positional negative digits point).chars
      = signChars negative ++ Json.positional digits point := by
  unfold positional Json.positional
  by_cases hpoint : point ≤ 0
  · rw [if_pos hpoint, if_pos hpoint]
    have hfraction : (List.replicate (-point).toNat '0' ++ digits).isEmpty = false := by
      simpa using fun _ => hne
    simp only [chars, fractionChars, exponentChars, hfraction]
    simp
  · rw [if_neg hpoint, if_neg hpoint]
    simp only [chars, fractionChars, exponentChars]
    -- where all digits stand before the point a zero is put behind it
    by_cases hdrop : (digits.drop point.toNat).isEmpty = true
    · simp [hdrop]
    · simp [hdrop]

/-- So has the spelling of a decimal with an exponent. -/
theorem chars_scientific (negative : Bool) {digits : List Char} (hne : digits ≠ [])
    (exponent : Int) :
    (scientific negative digits exponent).chars
      = signChars negative ++ Json.scientific digits exponent := by
  cases digits with
  | nil => exact absurd rfl hne
  | cons d digits =>
    unfold scientific Json.scientific
    simp only [chars, fractionChars, exponentChars]
    cases digits with
    | nil => simp
    | cons e digits => simp

/-- Digits that start with none other than zero make a number, wherever the point is put. -/
theorem isNumber_positional (negative : Bool) {c : Char} {digits : List Char}
    (hdigits : ∀ d ∈ c :: digits, d.isDigit = true) (hc : digitValue c ≠ 0) (point : Int) :
    (positional negative (c :: digits) point).IsNumber := by
  have hzeros : ∀ n, ∀ d ∈ List.replicate n '0', d.isDigit = true := by
    intro n d hd
    rw [List.eq_of_mem_replicate hd]
    rfl
  unfold positional
  by_cases hpoint : point ≤ 0
  · rw [if_pos hpoint]
    refine ⟨rfl, by simp, ?_, by simp⟩
    exact List.forall_mem_append.2 ⟨hzeros _, hdigits⟩
  · rw [if_neg hpoint]
    -- at least one digit stands before the point
    obtain ⟨k, hk⟩ : ∃ k, point.toNat = k + 1 := ⟨point.toNat - 1, by omega⟩
    refine ⟨?_, ?_, ?_, by simp⟩
    · simp only [hk, List.take_succ_cons, List.cons_append, List.map_cons]
      cases hrest : (digits.take k
        ++ List.replicate (k + 1 - (c :: digits).length) '0').map digitValue with
      | nil => rfl
      | cons d rest =>
        show (digitValue c != 0) = true
        simpa using hc
    · exact List.forall_mem_append.2
        ⟨fun d hd => hdigits d (List.mem_of_mem_take hd), hzeros _⟩
    · simp only
      split
      · simp
      · exact fun d hd => hdigits d (List.mem_of_mem_drop hd)

/-- Digits make a number in scientific form, whatever the exponent is. -/
theorem isNumber_scientific (negative : Bool) {c : Char} {digits : List Char}
    (hdigits : ∀ d ∈ c :: digits, d.isDigit = true) (exponent : Int) :
    (scientific negative (c :: digits) exponent).IsNumber := by
  obtain ⟨hc, hrest⟩ := List.forall_mem_cons.1 hdigits
  refine ⟨rfl, by simpa [scientific] using hc, hrest, ?_⟩
  intro e he
  obtain rfl := Option.some.inj he
  exact ⟨Nat.toDigits_ne_nil, isDigit_toDigits _⟩

end Spelling

/-- Zeros are stripped from the end of a number, which does not become zero by that. -/
theorem digits_stripZeros_ne_zero (n : Nat) {d : Binary.Decimal} (h : d.digits ≠ 0) :
    (d.stripZeros n).digits ≠ 0 := by
  induction n generalizing d with
  | zero => exact h
  | succ n ih =>
    unfold Binary.Decimal.stripZeros
    split
    · next hzero =>
      simp only [Bool.and_eq_true, decide_eq_true_eq] at hzero
      refine ih ?_
      show d.digits / 10 ≠ 0
      omega
    · exact h

/-- Nothing is stripped from zero. -/
theorem stripZeros_zero (n : Nat) : Binary.Decimal.stripZeros n ⟨0, 0⟩ = ⟨0, 0⟩ := by
  cases n with
  | zero => rfl
  | succ n =>
    unfold Binary.Decimal.stripZeros
    simp

/-- A decimal of the grid that rounds to a magnitude is not zero. -/
theorem digits_nearestOnGrid_ne_zero {magnitude : Nat} {exponent : Int} {d : Binary.Decimal}
    (h : Binary.double.nearestOnGrid magnitude exponent = some d) : d.digits ≠ 0 := by
  -- the two neighbours are taken where they fit, and zero fits nowhere
  have hfits : ∀ (near far : Nat) (fits : Nat → Bool), (∀ n, fits n = true → n ≠ 0) →
      (if fits near then some (Binary.Decimal.mk near exponent)
        else if fits far then some ⟨far, exponent⟩ else none) = some d → d.digits ≠ 0 := by
    intro near far fits hfits hd
    split at hd
    · next hnear =>
      obtain rfl := Option.some.inj hd
      exact hfits near hnear
    · split at hd
      · next hfar =>
        obtain rfl := Option.some.inj hd
        exact hfits far hfar
      · cases hd
  exact hfits _ _ (fun n => n != 0 && Binary.double.roundsFrom magnitude ⟨n, exponent⟩)
    (fun n hn => by simpa using (Bool.and_eq_true_iff.1 hn).1) h

/-- The digits of the shortest decimal are no zero, unless there is no such decimal. -/
theorem shortest_cases (magnitude : Nat) :
    (Binary.double.shortest magnitude).digits ≠ 0
      ∨ Binary.double.shortest magnitude = ⟨0, 0⟩ := by
  unfold Binary.Format.shortest
  simp only
  -- the first grid with a decimal that rounds to the magnitude, if there is one
  cases hfound : (List.range 24).findSome? fun (i : Nat) => Binary.double.nearestOnGrid magnitude
      (Binary.double.coarsestExponent magnitude - i) with
  | none => exact .inr (stripZeros_zero 24)
  | some d =>
    obtain ⟨i, _, hi⟩ := List.exists_of_findSome?_eq_some hfound
    exact .inl (digits_stripZeros_ne_zero 24 (digits_nearestOnGrid_ne_zero hi))

/-- A finite magnitude as it is written. -/
def Spelling.ofMagnitude (negative : Bool) (magnitude : Nat) : Spelling :=
  if magnitude = 0 then ⟨negative, ['0'], ['0'], none⟩
  else
    let d := Binary.double.shortest magnitude
    let digits := Nat.toDigits 10 d.digits
    let exponent := d.exponent + digits.length - 1
    if plainExponents.1 ≤ exponent && exponent ≤ plainExponents.2 then
      .positional negative digits (exponent + 1)
    else .scientific negative digits exponent

/-- The spelling of a magnitude has the characters that are written for it. -/
theorem Spelling.chars_ofMagnitude (negative : Bool) (magnitude : Nat) :
    (ofMagnitude negative magnitude).chars = signChars negative ++ magnitudeChars magnitude := by
  unfold ofMagnitude magnitudeChars
  split
  · rfl
  · simp only
    split
    · exact chars_positional negative Nat.toDigits_ne_nil _
    · exact chars_scientific negative Nat.toDigits_ne_nil _

/-- A finite magnitude is written as a number. -/
theorem Spelling.isNumber_ofMagnitude (negative : Bool) (magnitude : Nat) :
    (ofMagnitude negative magnitude).IsNumber := by
  unfold ofMagnitude
  split
  · exact ⟨rfl, by simp, by simp, by simp⟩
  · simp only
    rcases shortest_cases magnitude with hne | hzero
    · obtain ⟨c, digits, heq, -, hc⟩ := exists_toDigits_eq_cons hne
      have hdigits := isDigit_toDigits (Binary.double.shortest magnitude).digits
      rw [heq] at hdigits ⊢
      split
      · exact isNumber_positional negative hdigits hc _
      · exact isNumber_scientific negative hdigits _
    · rw [hzero]
      show IsNumber ⟨negative, ['0'], ['0'], none⟩
      exact ⟨rfl, by simp, by simp, by simp⟩

/-- How a number is spelled; values that JSON cannot spell have no spelling. -/
def Number.spelling? : Number → Option Spelling
  | .int n => some ⟨decide (n < 0), Nat.toDigits 10 n.natAbs, [], none⟩
  | .double bits =>
    let m := Binary.double.magnitude bits.toNat
    if m < Binary.double.infinity then
      some (.ofMagnitude (Binary.double.isNegative bits.toNat) m)
    else none

/-- A number is written by its spelling, and as null if it has none. -/
theorem Number.chars_eq (n : Number) :
    n.chars = (n.spelling?.map Spelling.chars).getD ['n', 'u', 'l', 'l'] := by
  cases n with
  | int n =>
    show (if n < 0 then _ else _) = Spelling.chars _
    by_cases hn : n < 0
    · simp [hn, Spelling.chars, Spelling.signChars, Spelling.fractionChars, Spelling.exponentChars]
    · simp [hn, Spelling.chars, Spelling.signChars, Spelling.fractionChars, Spelling.exponentChars]
  | double bits =>
    unfold chars spelling?
    simp only
    split
    · rw [Option.map_some, Option.getD_some, Spelling.chars_ofMagnitude]
      cases Binary.double.isNegative bits.toNat with
      | true => rfl
      | false => rfl
    · rfl

/-- Spellings of numbers are numbers. -/
theorem Number.isNumber_of_spelling? {n : Number} {s : Spelling} (h : n.spelling? = some s) :
    s.IsNumber := by
  cases n with
  | int n =>
    obtain rfl := Option.some.inj h
    exact ⟨isWhole_toDigits _, isDigit_toDigits _, by simp, by simp⟩
  | double bits =>
    unfold spelling? at h
    simp only at h
    split at h
    · obtain rfl := Option.some.inj h
      exact Spelling.isNumber_ofMagnitude _ _
    · cases h

end TableScan.Json
