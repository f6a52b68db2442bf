import TableScan.Proofs.Text.Splitting
import TableScan.Text.Bytes

/-!
# Slices of a text by byte offsets

A place in a text is told by the number of bytes in front of it. Not every number is a place:
inside of the bytes of one character nothing begins and nothing ends (`IsBoundary`). `slice?` is the
part of a text between two offsets, and fails where one of them is no place, as it does where they
are out of order.

Main statement: the lengths of its fronts are the places of a text (`isBoundary_iff`), and the slice
between two of them is what stands there (`slice?_append`).
-/

namespace TableScan.Text

/-- Holds of the byte offsets at which a character of a text begins, and of its end. -/
def IsBoundary (s : String) (offset : Nat) : Prop := (⟨offset⟩ : String.Pos.Raw).IsValid s

instance (s : String) (offset : Nat) : Decidable (IsBoundary s offset) :=
  inferInstanceAs (Decidable ((⟨offset⟩ : String.Pos.Raw).IsValid s))

/-- The part of a text between two byte offsets. -/
def slice? (s : String) (first last : Nat) : Option String :=
  if first ≤ last ∧ IsBoundary s first ∧ IsBoundary s last then
    ofUtf8Bytes? (((utf8Bytes s).take last).drop first)
  else none

/-- The part of a text from a byte offset on. -/
def sliceFrom? (s : String) (first : Nat) : Option String := slice? s first s.utf8ByteSize

/-- The byte offset of the first occurrence of a character. -/
def offsetOf? (c : Char) (s : String) : Option Nat :=
  if c ∈ s.toList then some (utf8Length (s.toList.takeWhile (· != c))) else none

variable {s : String} {offset : Nat} {c : Char} {cs ds : List Char}

/-! ## Lengths in bytes -/

/-- The length that is added up over the characters is the size of the string of them. -/
theorem utf8Length_eq (cs : List Char) : utf8Length cs = (String.ofList cs).utf8ByteSize := by
  -- for any number to start from, so that the induction goes through the fold
  have hfold : ∀ n, cs.foldl (fun n c => n + c.utf8Size) n
      = n + (String.ofList cs).utf8ByteSize := by
    induction cs with
    | nil => exact fun n => rfl
    | cons c cs ih =>
      intro n
      rw [List.foldl_cons, ih, String.ofList_cons, String.utf8ByteSize_append,
        String.utf8ByteSize_singleton, Nat.add_assoc]
  rw [utf8Length, hfold, Nat.zero_add]

/-- No characters have no bytes. -/
@[simp] theorem utf8Length_nil : utf8Length [] = 0 := rfl

/-- The bytes of two lists of characters add up. -/
@[simp] theorem utf8Length_append (cs ds : List Char) :
    utf8Length (cs ++ ds) = utf8Length cs + utf8Length ds := by
  rw [utf8Length_eq, utf8Length_eq, utf8Length_eq, String.ofList_append,
    String.utf8ByteSize_append]

/-- A character has bytes of its own, in front of those of the others. -/
@[simp] theorem utf8Length_cons (c : Char) (cs : List Char) :
    utf8Length (c :: cs) = c.utf8Size + utf8Length cs := by
  rw [utf8Length_eq, utf8Length_eq, String.ofList_cons, String.utf8ByteSize_append,
    String.utf8ByteSize_singleton]

/-- Every character has at least one byte. -/
theorem utf8Length_eq_zero_iff : utf8Length cs = 0 ↔ cs = [] := by
  cases cs with
  | nil => exact iff_of_true rfl rfl
  | cons c cs =>
    have hpos := c.utf8Size_pos
    rw [utf8Length_cons]
    exact iff_of_false (by omega) (List.cons_ne_nil c cs)

/-- The bytes of two texts stand one behind the other. -/
theorem utf8Bytes_append (s t : String) : utf8Bytes (s ++ t) = utf8Bytes s ++ utf8Bytes t := by
  rw [utf8Bytes_eq, utf8Bytes_eq, utf8Bytes_eq, String.toByteArray_append,
    ByteArray.data_append, Array.toList_append]

/-! ## Places -/

/-- The places of a text are the lengths of its fronts. -/
theorem isBoundary_iff :
    IsBoundary s offset ↔ ∃ front back, s = front ++ back ∧ offset = front.utf8ByteSize := by
  rw [IsBoundary, String.Pos.Raw.isValid_iff_exists_append]
  constructor
  · rintro ⟨front, back, hs, hoffset⟩
    exact ⟨front, back, hs, congrArg String.Pos.Raw.byteIdx hoffset⟩
  · rintro ⟨front, back, hs, rfl⟩
    exact ⟨front, back, hs, rfl⟩

/-- No place is behind the end. -/
theorem IsBoundary.le (h : IsBoundary s offset) : offset ≤ s.utf8ByteSize := by
  obtain ⟨front, back, rfl, rfl⟩ := isBoundary_iff.1 h
  rw [String.utf8ByteSize_append]
  exact Nat.le_add_right _ _

/-- The slice between two places is what stands there. -/
theorem slice?_append (front middle back : String) :
    slice? (front ++ middle ++ back) front.utf8ByteSize (front ++ middle).utf8ByteSize
      = some middle := by
  have hle : front.utf8ByteSize ≤ (front ++ middle).utf8ByteSize := by
    rw [String.utf8ByteSize_append]
    exact Nat.le_add_right _ _
  -- both ends of the part are the lengths of fronts
  have hfirst : IsBoundary (front ++ middle ++ back) front.utf8ByteSize :=
    isBoundary_iff.2 ⟨front, middle ++ back, String.append_assoc, rfl⟩
  have hlast : IsBoundary (front ++ middle ++ back) (front ++ middle).utf8ByteSize :=
    isBoundary_iff.2 ⟨front ++ middle, back, rfl, rfl⟩
  rw [slice?, if_pos ⟨hle, hfirst, hlast⟩, utf8Bytes_append (front ++ middle), ← length_utf8Bytes,
    ← length_utf8Bytes, List.take_left, utf8Bytes_append, List.drop_left, ofUtf8Bytes?_utf8Bytes]

/-- The same of characters, with offsets that are lengths of lists. -/
theorem slice?_ofList (front middle back : List Char) :
    slice? (String.ofList (front ++ middle ++ back)) (utf8Length front)
      (utf8Length front + utf8Length middle) = some (String.ofList middle) := by
  rw [← utf8Length_append, utf8Length_eq, utf8Length_eq, String.ofList_append,
    String.ofList_append]
  exact slice?_append _ _ _

/-- The front of a text up to a place. -/
theorem slice?_front_ofList (front back : List Char) :
    slice? (String.ofList (front ++ back)) 0 (utf8Length front) = some (String.ofList front) := by
  have hslice := slice?_ofList [] front back
  rwa [utf8Length_nil, Nat.zero_add] at hslice

/-- From a place on stands what is behind its front. -/
theorem sliceFrom?_append (front back : String) :
    sliceFrom? (front ++ back) front.utf8ByteSize = some back := by
  have hslice := slice?_append front back ""
  rwa [String.append_empty] at hslice

/-- The same of characters. -/
theorem sliceFrom?_ofList (front back : List Char) :
    sliceFrom? (String.ofList (front ++ back)) (utf8Length front) = some (String.ofList back) := by
  rw [utf8Length_eq, String.ofList_append]
  exact sliceFrom?_append _ _

/-! ## Occurrences -/

/-- A character that does not occur has no offset. -/
theorem offsetOf?_of_not_mem (h : c ∉ cs) : offsetOf? c (String.ofList cs) = none := by
  rw [offsetOf?, String.toList_ofList, if_neg h]

/-- The first occurrence has the length of what stands in front of it. -/
theorem offsetOf?_append (h : c ∉ cs) (ds : List Char) :
    offsetOf? c (String.ofList (cs ++ c :: ds)) = some (utf8Length cs) := by
  have hmem : c ∈ cs ++ c :: ds := List.mem_append_right cs List.mem_cons_self
  rw [offsetOf?, String.toList_ofList, if_pos hmem, takeWhile_of_first h]

end TableScan.Text
