/-!
# Binary interchange formats

Floating-point values are held as their IEEE 754 bits, and everything done with them is exact
arithmetic on those bits. A `Format` fixes the widths of the two fields below the sign.

The bits below the sign, the *magnitude*, order the non-negative values of a format. A magnitude
`b` stands for `significand b * 2 ^ exponent b / 2 ^ scale`: the exponent field zero shares its
unit with the field one, so the significand covers subnormal and normal values alike, and the
successor of a value is the successor of its magnitude, across binades too.

* `Format.value` reads a magnitude as a quotient of natural numbers,
* `Format.round` gives the magnitude nearest to a quotient, ties to even, infinity above the range,
* `single` and `double` are the two formats in use, `widen` and `narrow` pass between them.
-/

-- powers of numbers are those of the core library, also beside the powers of monoids
attribute [instance (2000), default_instance (20000)] instPowNat

namespace TableScan.Binary

/-- The widths of the exponent and fraction fields of a floating-point format. -/
structure Format where
  exponentBits : Nat
  fractionBits : Nat
  deriving DecidableEq, Repr

def single : Format := ⟨8, 23⟩

def double : Format := ⟨11, 52⟩

namespace Format

variable (f : Format)

/-- The bit of the sign, which is also the number of magnitudes. -/
def signBit : Nat := 2 ^ (f.exponentBits + f.fractionBits)

/-- The magnitude of infinity; those above it are not numbers. -/
def infinity : Nat := (2 ^ f.exponentBits - 1) * 2 ^ f.fractionBits

/-- The common denominator of all values is two to this power. -/
def scale : Nat := 2 ^ (f.exponentBits - 1) - 1 + f.fractionBits

def exponent (magnitude : Nat) : Nat := max 1 (magnitude / 2 ^ f.fractionBits)

/-- The integer significand of a magnitude, with the leading one of a normal value. -/
def significand (magnitude : Nat) : Nat :=
  magnitude - (f.exponent magnitude - 1) * 2 ^ f.fractionBits

def value (magnitude : Nat) : Nat × Nat :=
  (f.significand magnitude * 2 ^ f.exponent magnitude, 2 ^ f.scale)

/-- The integer nearest to a quotient; of two equally near ones the even one. -/
def roundToEven (num den : Nat) : Nat :=
  let q := num / den
  let r := num % den
  if 2 * r > den || (2 * r == den && q % 2 == 1) then q + 1 else q

/-- The magnitude nearest to `num / den`, ties to even; infinity above the range. The exponent is
the least one under which the significand fits, and a significand that rounds up to the next
power of two carries into the exponent by itself. -/
def round (num den : Nat) : Nat :=
  let scaled := num * 2 ^ f.scale
  -- subnormal values share the exponent of the least normal ones
  let e := max 1 (Nat.log2 (scaled / den) - f.fractionBits)
  min f.infinity ((e - 1) * 2 ^ f.fractionBits + roundToEven scaled (den * 2 ^ e))

def mul (a b : Nat) : Nat :=
  let x := f.value a
  let y := f.value b
  f.round (x.1 * y.1) (x.2 * y.2)

def div (a b : Nat) : Nat :=
  let x := f.value a
  let y := f.value b
  f.round (x.1 * y.2) (x.2 * y.1)

def isNegative (bits : Nat) : Bool := f.signBit ≤ bits

def magnitude (bits : Nat) : Nat := bits % f.signBit

def withSign (negative : Bool) (magnitude : Nat) : Nat :=
  if negative then f.signBit + magnitude else magnitude

/-- Holds of the bits of a number that is neither infinite nor not a number. -/
def isFinite (bits : Nat) : Bool := f.magnitude bits < f.infinity

end Format

/-- A 32-bit value as a 64-bit one. Every number passes unchanged; a pattern that is not a number
keeps its payload at the top of the fraction, with the quiet bit set. -/
def widen (bits : UInt32) : UInt64 :=
  let m := single.magnitude bits.toNat
  let negative := single.isNegative bits.toNat
  -- finite and infinite values by themselves, then the payloads
  let wide :=
    if m < single.infinity then
      let v := single.value m
      double.round v.1 v.2
    else if m = single.infinity then double.infinity
    else double.infinity + 2 ^ 51 + (m - single.infinity) % 2 ^ 22 * 2 ^ 29
  UInt64.ofNat (double.withSign negative wide)

/-- A finite 64-bit value as the nearest 32-bit one, infinite above the range. -/
def narrow (bits : UInt64) : UInt32 :=
  let v := double.value (double.magnitude bits.toNat)
  UInt32.ofNat (single.withSign (double.isNegative bits.toNat) (single.round v.1 v.2))

def ofInt (n : Int) : UInt64 :=
  UInt64.ofNat (double.withSign (decide (n < 0)) (double.round n.natAbs 1))

end TableScan.Binary
