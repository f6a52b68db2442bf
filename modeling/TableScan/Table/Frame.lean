import TableScan.Table.Checksum
import TableScan.Value

/-!
# Row frames

A row file is a sequence of frames, one for each row: the length of the whole frame, the row as
JSON text, and the checksum of both, the two numbers in four bytes with the least significant
first.

* `ofRow` frames a row,
* `read` checks the frame that some bytes start with and reads its payload.
-/

namespace TableScan.Table.Frame

/-- The bytes of a frame beside its payload. -/
def overhead : Nat := 8

/-- The last `width` bytes of a number, the least significant first. -/
def littleEndian : Nat → Nat → List UInt8
  | 0, _ => []
  | width + 1, n => UInt8.ofNat n :: littleEndian width (n / 256)

/-- The number of some bytes, the least significant first. -/
def ofLittleEndian : List UInt8 → Nat
  | [] => 0
  | b :: rest => b.toNat + 256 * ofLittleEndian rest

def around (payload : List UInt8) : List UInt8 :=
  let body := littleEndian 4 (overhead + payload.length) ++ payload
  body ++ littleEndian 4 (checksum body).toNat

def ofRow (row : Record) : List UInt8 := around (Text.utf8Bytes row.toJson.render)

/-- The length that a frame declares in its first four bytes. -/
def declaredLength (bytes : List UInt8) : Nat := ofLittleEndian (bytes.take 4)

/-- The payload of the frame that some bytes start with, and the length of the frame. -/
def read (bytes : List UInt8) : Except FrameFault (Json × Nat) :=
  let declared := declaredLength bytes
  if bytes.length < overhead then .error (.tooShort bytes.length)
  else if declared < overhead then .error (.tooShort declared)
  else if bytes.length < declared then .error (.truncated declared bytes.length)
  else
    let body := bytes.take (declared - 4)
    let stored := UInt32.ofNat (ofLittleEndian ((bytes.drop (declared - 4)).take 4))
    if checksum body = stored then
      match Json.parseBytes? (body.drop 4) with
      | some payload => .ok (payload, declared)
      | none => .error .invalidPayload
    else .error (.checksumMismatch (checksum body) stored)

end TableScan.Table.Frame
