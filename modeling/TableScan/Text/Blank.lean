/-!
# Text: white space

The schema grammar, the projection grammar and every list that a user types share one notion of
white space: the characters with the Unicode property `White_Space`. This module holds the test
and the trimming functions over character lists; `trimmed` is the form for strings.
-/

namespace TableScan.Text

/-- The characters with the Unicode property `White_Space`. -/
def isBlank (c : Char) : Bool :=
  let n := c.toNat
  (0x09 ≤ n && n ≤ 0x0D) || n == 0x20 || n == 0x85 || n == 0xA0 || n == 0x1680
    || (0x2000 ≤ n && n ≤ 0x200A) || n == 0x2028 || n == 0x2029 || n == 0x202F
    || n == 0x205F || n == 0x3000

def trimStart (cs : List Char) : List Char := cs.dropWhile isBlank

def trimEnd (cs : List Char) : List Char := (trimStart cs.reverse).reverse

def trim (cs : List Char) : List Char := trimEnd (trimStart cs)

def trimmed (s : String) : String := String.ofList (trim s.toList)

/-- Holds of a string of white space alone, the empty one included. -/
def isBlankText (s : String) : Bool := s.toList.all isBlank

/-- Dropping a leading run never lengthens a list. -/
theorem length_dropWhile_le {α : Type} (p : α → Bool) :
    ∀ l : List α, (l.dropWhile p).length ≤ l.length
  | [] => Nat.le_refl _
  | a :: l => by
    rw [List.dropWhile_cons]
    split
    · exact Nat.le_succ_of_le (length_dropWhile_le p l)
    · exact Nat.le_refl _

theorem length_trimStart_le (cs : List Char) : (trimStart cs).length ≤ cs.length :=
  length_dropWhile_le isBlank cs

/-- What stands behind the first character that is not white space is shorter. -/
theorem length_lt_of_trimStart_cons {cs : List Char} {c : Char} {r : List Char}
    (h : trimStart cs = c :: r) : r.length < cs.length := by
  have hle := length_trimStart_le cs
  rw [h, List.length_cons] at hle
  exact hle

/-- What is left after trimming the start does not start with white space. -/
theorem isBlank_head_trimStart {cs : List Char} {c : Char} {r : List Char}
    (h : trimStart cs = c :: r) : isBlank c = false := by
  induction cs with
  | nil => simp [trimStart] at h
  | cons d ds ih =>
    rw [trimStart, List.dropWhile_cons] at h
    split at h
    · exact ih h
    · next hd => cases h; simpa using hd

end TableScan.Text
