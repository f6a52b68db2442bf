import TableScan.Binary.Format

/-!
# Decimal text of binary values

Both directions between a 64-bit value and decimal digits, in exact arithmetic.

* `shortest` is the decimal with the fewest digits among those that round to a value: the point of
  the coarsest power-of-ten grid that falls into the interval of reals rounding to it, the nearest
  one if two fall in, the even one if they are equally near.
* `ofScientific` reads digits and a power of ten in two rounded steps, the integer of the digits
  first and then one product or quotient with a power of ten. The result is not always the
  nearest value to the decimal.
-/

namespace TableScan.Binary

/-- A non-negative decimal `digits * 10 ^ exponent`. -/
structure Decimal where
  digits : Nat
  exponent : Int
  deriving DecidableEq, Repr

namespace Decimal

/-- Moves trailing zeros of the digits into the exponent. The bound is the number of digits. -/
def stripZeros : Nat → Decimal → Decimal
  | 0, d => d
  | n + 1, d =>
    if d.digits % 10 = 0 && d.digits != 0 then stripZeros n ⟨d.digits / 10, d.exponent + 1⟩ else d

def value (d : Decimal) : Nat × Nat :=
  match d.exponent with
  | .ofNat e => (d.digits * 10 ^ e, 1)
  | .negSucc e => (d.digits, 10 ^ (e + 1))

end Decimal

namespace Format

variable (f : Format)

/-- Whether a decimal lies between the midpoints that bound a magnitude's rounding interval; the
ends belong to it when the magnitude is even. -/
def roundsFrom (magnitude : Nat) (d : Decimal) : Bool :=
  let v := f.value magnitude
  let below := (f.value (magnitude - 1)).1 + v.1
  let above := (f.value (magnitude + 1)).1 + v.1
  let x := d.value
  let lower := below * x.2
  let upper := above * x.2
  let point := 2 * x.1 * v.2
  if magnitude % 2 = 0 then lower ≤ point && point ≤ upper else lower < point && point < upper

/-- The point of the grid of width `10 ^ exponent` nearest to a magnitude, among its two
neighbours on the grid that round to the magnitude. -/
def nearestOnGrid (magnitude : Nat) (exponent : Int) : Option Decimal :=
  let v := f.value magnitude
  let unit := (Decimal.mk 1 exponent).value
  let num := v.1 * unit.2
  let den := v.2 * unit.1
  let low := num / den
  let near := roundToEven num den
  let far := if near = low then low + 1 else low
  -- zero is on every grid and spells none of these magnitudes
  let fits (n : Nat) := n != 0 && f.roundsFrom magnitude ⟨n, exponent⟩
  if fits near then some ⟨near, exponent⟩
  else if fits far then some ⟨far, exponent⟩
  else none

def coarsestExponent (magnitude : Nat) : Int :=
  let v := f.value magnitude
  let bits : Int := (Nat.log2 v.1 : Int) - (Nat.log2 v.2 : Int) + 1
  -- 302 / 1000 is a little more than the decimal logarithm of two
  bits * 302 / 1000 + 3

/-- The shortest decimal that rounds to a finite magnitude other than zero. Twenty-four grids are
more than the seventeen digits that always suffice. -/
def shortest (magnitude : Nat) : Decimal :=
  let top := f.coarsestExponent magnitude
  -- from the coarsest grid on, so the first decimal found has the fewest digits
  let found := (List.range 24).findSome? fun (i : Nat) => f.nearestOnGrid magnitude (top - i)
  (found.getD ⟨0, 0⟩).stripZeros 24

end Format

def powerOfTen (k : Nat) : Nat := double.round (10 ^ k) 1

def maxPower : Nat := 308

/-- Divides a magnitude by a power of ten, in steps of the greatest one; zero stays zero. -/
def scaleDown (magnitude k : Nat) : Nat :=
  if k ≤ maxPower then double.div magnitude (powerOfTen k)
  else if magnitude = 0 then 0
  else scaleDown (double.div magnitude (powerOfTen maxPower)) (k - maxPower)
termination_by k
decreasing_by simp only [maxPower] at *; omega

/-- The magnitude read from `digits * 10 ^ exponent`; `none` if it exceeds the range. -/
def ofScientific (digits : Nat) (exponent : Int) : Option Nat :=
  let start := double.round digits 1
  match exponent with
  | .negSucc k => some (scaleDown start (k + 1))
  | .ofNat k =>
    -- one rounding for the power and one for the product
    if k ≤ maxPower then
      let r := double.mul start (powerOfTen k)
      if r < double.infinity then some r else none
    else if start = 0 then some 0
    else none

end TableScan.Binary
