/-!
# Text: the bytes of a string

Files, frames and sort keys are byte lists; strings enter them as UTF-8. Main statements: the bytes
of a string spell it (`ofUtf8Bytes?_utf8Bytes`), so different strings have different bytes
(`utf8Bytes_injective`).
-/

namespace TableScan.Text

def utf8Bytes (s : String) : List UInt8 := s.toUTF8.toList

/-- The string that a list of UTF-8 bytes spells, if it is valid UTF-8. -/
def ofUtf8Bytes? (bytes : List UInt8) : Option String :=
  String.fromUTF8? (ByteArray.mk bytes.toArray)

/-- The number of UTF-8 bytes of a list of characters, the unit of offsets in error texts. -/
def utf8Length (cs : List Char) : Nat := cs.foldl (fun n c => n + c.utf8Size) 0

/-- A number in lower-case hexadecimal, padded with zeros to `width` digits. -/
def hex (width n : Nat) : String :=
  let digits := Nat.toDigits 16 n
  String.ofList (List.replicate (width - digits.length) '0' ++ digits)

/-- The loop that lists a byte array puts what it has collected before the bytes from its position
on. -/
theorem toList_loop (bs : ByteArray) (i : Nat) (collected : List UInt8) :
    ByteArray.toList.loop bs i collected = collected.reverse ++ bs.data.toList.drop i := by
  rw [ByteArray.toList.loop]
  split
  · next h =>
    have hi : i < bs.data.toList.length := by simpa using h
    rw [toList_loop bs (i + 1), List.drop_eq_getElem_cons hi]
    simp [ByteArray.get!, h]
  · next h =>
    have hi : bs.data.toList.length ≤ i := by simpa using h
    rw [List.drop_of_length_le hi, List.append_nil]
termination_by bs.size - i

theorem utf8Bytes_eq (s : String) : utf8Bytes s = s.toByteArray.data.toList := by
  rw [utf8Bytes, ByteArray.toList, toList_loop, String.toUTF8_eq_toByteArray]
  rfl

@[simp] theorem length_utf8Bytes (s : String) : (utf8Bytes s).length = s.utf8ByteSize := by
  rw [utf8Bytes_eq]
  rfl

/-- The bytes of a string spell it. -/
theorem ofUtf8Bytes?_utf8Bytes (s : String) : ofUtf8Bytes? (utf8Bytes s) = some s := by
  unfold ofUtf8Bytes? String.fromUTF8?
  simp only [utf8Bytes_eq, Array.toArray_toList]
  rw [dif_pos s.isValidUTF8]
  rfl

theorem utf8Bytes_injective {s t : String} (h : utf8Bytes s = utf8Bytes t) : s = t := by
  have hs := ofUtf8Bytes?_utf8Bytes s
  rw [h, ofUtf8Bytes?_utf8Bytes t] at hs
  exact (Option.some.inj hs).symm

end TableScan.Text
