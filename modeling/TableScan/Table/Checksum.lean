/-!
# Checksums

The CRC-32 of the IEEE 802.3 polynomial, bit-reflected, which guards every row frame: the register
starts with all ones, takes in one byte after another, and is inverted at the end.
-/

namespace TableScan.Table

/-- The polynomial, its bits reflected. -/
def crcPolynomial : UInt32 := 0xEDB88320

/-- Shifts one bit out of the register. -/
def crcShift (register : UInt32) : UInt32 :=
  if register &&& 1 = 1 then (register >>> 1) ^^^ crcPolynomial else register >>> 1

/-- Takes a byte into the register. -/
def crcByte (register : UInt32) (b : UInt8) : UInt32 :=
  crcShift <| crcShift <| crcShift <| crcShift <| crcShift <| crcShift <| crcShift <| crcShift <|
    register ^^^ b.toUInt32

/-- The register after some bytes. -/
def crcRegister (register : UInt32) (bytes : List UInt8) : UInt32 := bytes.foldl crcByte register

def checksum (bytes : List UInt8) : UInt32 := crcRegister 0xFFFFFFFF bytes ^^^ 0xFFFFFFFF

def hasChecksum (bytes : List UInt8) (expected : UInt32) : Bool := checksum bytes == expected

end TableScan.Table
