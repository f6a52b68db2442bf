import TableScan.Value

/-!
# Row keys: the encoding of a field

Values are encoded so that comparing bytes compares values. A field starts with a presence byte,
zero for null and one otherwise, so that nulls come first. Then:

* truth values are one byte,
* integers are big-endian, moved up by half their range so that negative ones come first,
* floating-point values are big-endian bits, all inverted if negative and with the sign bit set if
  not, which puts them into the order of their magnitudes with signs,
* strings and bytes have every zero byte followed by `FF`, and end with two zero bytes.

No encoding is the beginning of another one of its type, so fields written one after another
compare like the list of their values.
-/

namespace TableScan.RowKey

/-- The last `width` bytes of a number, the most significant first. -/
def bigEndian : Nat → Nat → List UInt8
  | 0, _ => []
  | width + 1, n => bigEndian width (n / 256) ++ [UInt8.ofNat n]

/-- The bits of a floating-point value in the order of values. -/
def orderedBits (f : Binary.Format) (bits : Nat) : Nat :=
  if f.isNegative bits then 2 * f.signBit - 1 - bits else bits + f.signBit

/-- Bytes with every zero marked, and a mark for the end. -/
def terminated : List UInt8 → List UInt8
  | [] => [0, 0]
  | b :: rest => if b = 0 then 0 :: 255 :: terminated rest else b :: terminated rest

/-- The encoding of a value other than null; missing for a value of another type. A narrow integer
or floating-point value counts as a wide one. -/
def encodeValue? : Primitive → Value → Option (List UInt8)
  | .bool, .bool b => some [if b then 1 else 0]
  | .int, .int v => some (bigEndian 4 (v.toInt + 2 ^ 31).toNat)
  | .long, .long v => some (bigEndian 8 (v.toInt + 2 ^ 63).toNat)
  | .long, .int v => some (bigEndian 8 (v.toInt + 2 ^ 63).toNat)
  | .float, .float bits => some (bigEndian 4 (orderedBits Binary.single bits.toNat))
  | .double, .double bits => some (bigEndian 8 (orderedBits Binary.double bits.toNat))
  | .double, .float bits =>
    some (bigEndian 8 (orderedBits Binary.double (Binary.widen bits).toNat))
  | .string, .string s => some (terminated (Text.utf8Bytes s))
  | .bytes, .bytes bs => some (terminated bs)
  | _, _ => none

/-- The byte that tells null from a value. -/
def presence (v : Value) : UInt8 := if v.isNull then 0 else 1

def encodeField? (p : Primitive) (v : Value) : Option (List UInt8) :=
  if v.isNull then some [presence v] else (encodeValue? p v).map (presence v :: ·)

/-- What is written of a field up to the point where its type is found wrong. -/
def writtenField (p : Primitive) (v : Value) : List UInt8 :=
  (encodeField? p v).getD [presence v]

end TableScan.RowKey
