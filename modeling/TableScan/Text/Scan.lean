import TableScan.Text.Blank

/-!
# Text: scanning from the front

A scanner looks at the front of a character list, gives what it read there and the rest. The rest
is shorter than the list, and the result carries the proof, so that scanners may call each other
on what is left and still end.
-/

namespace TableScan.Text

/-- What a scanner read at the front of `cs`, and what is left of it. -/
structure Scan (cs : List Char) (α : Type) where
  value : α
  rest : List Char
  lt : rest.length < cs.length

namespace Scan

variable {cs ds : List Char} {α β : Type}

def map (g : α → β) (s : Scan cs α) : Scan cs β := ⟨g s.value, s.rest, s.lt⟩

/-- A scan of a list is one of every list that is at least as long. -/
def lift (h : ds.length ≤ cs.length) (s : Scan ds α) : Scan cs α :=
  ⟨s.value, s.rest, Nat.lt_of_lt_of_le s.lt h⟩

theorem lt_of_trimStart {r : List Char} (s : Scan cs α) (h : trimStart s.rest = r) :
    r.length < cs.length := by
  rw [← h]
  exact Nat.lt_of_le_of_lt (length_trimStart_le s.rest) s.lt

theorem lt_of_trimStart_cons {c : Char} {r : List Char} (s : Scan cs α)
    (h : trimStart s.rest = c :: r) : r.length < cs.length :=
  Nat.lt_trans (length_lt_of_trimStart_cons h) s.lt

end Scan

end TableScan.Text
