/-!
# Text: cutting at a character

`split` cuts a string at every occurrence of a separator, so that joining the parts with it gives
the string back; `splitFirst` cuts at the first occurrence alone.
-/

namespace TableScan.Text

/-- The parts of a list between the occurrences of a separator; never empty. -/
def splitChars (separator : Char) : List Char → List (List Char)
  | [] => [[]]
  | c :: cs =>
    if c = separator then [] :: splitChars separator cs
    else match splitChars separator cs with
      | [] => [[c]]
      | part :: parts => (c :: part) :: parts

def split (separator : Char) (s : String) : List String :=
  (splitChars separator s.toList).map String.ofList

/-- The parts before and after the first separator; the second part is missing without one. -/
def splitFirst (separator : Char) (s : String) : String × Option String :=
  let cs := s.toList
  let before := cs.takeWhile (· != separator)
  match cs.dropWhile (· != separator) with
  | [] => (s, none)
  | _ :: after => (String.ofList before, some (String.ofList after))

/-- A part holds no separator, so the parts are cut everywhere. -/
theorem not_mem_of_mem_splitChars {separator : Char} {cs part : List Char}
    (h : part ∈ splitChars separator cs) : separator ∉ part := by
  induction cs generalizing part with
  | nil => simp_all [splitChars]
  | cons c cs ih =>
    simp only [splitChars] at h
    split at h
    · rcases List.mem_cons.1 h with rfl | h
      · simp
      · exact ih h
    · next hc =>
      split at h
      · simp only [List.mem_singleton] at h
        subst h
        simpa using fun e => hc e.symm
      · next p ps hp =>
        rcases List.mem_cons.1 h with rfl | h
        · have hn : separator ∉ p := ih (by simp [hp])
          simpa [hn] using fun e => hc e.symm
        · exact ih (by simp [hp, h])

end TableScan.Text
