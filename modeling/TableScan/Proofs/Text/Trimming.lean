import TableScan.Text.Blank

/-!
# Trimmed text

Trimming takes white space from both ends of a text and leaves the rest as it is (`exists_trim`).
What it leaves is trimmed, and a text stays as it is just when its first and its last character are
no white space (`trim_eq_self_iff`).
-/

namespace TableScan.Text

variable {cs : List Char}

/-- Holds of text without white space at its ends. -/
def IsTrimmed (cs : List Char) : Prop :=
  (∀ c ∈ cs.head?, isBlank c = false) ∧ ∀ c ∈ cs.getLast?, isBlank c = false

/-! ## The front -/

/-- Trimming stops at a character that is no white space. -/
theorem trimStart_cons_of_not_blank {c : Char} (h : isBlank c = false) (cs : List Char) :
    trimStart (c :: cs) = c :: cs :=
  List.dropWhile_cons_of_neg (by rw [h]; decide)

/-- White space in front is taken away. -/
theorem trimStart_cons_of_blank {c : Char} (h : isBlank c = true) (cs : List Char) :
    trimStart (c :: cs) = trimStart cs :=
  List.dropWhile_cons_of_pos h

/-- The front is trimmed once and for all. -/
theorem trimStart_trimStart (cs : List Char) : trimStart (trimStart cs) = trimStart cs := by
  cases h : trimStart cs with
  | nil => rfl
  | cons c r => exact trimStart_cons_of_not_blank (isBlank_head_trimStart h) r

/-- A text keeps its front just when it does not begin with white space. -/
theorem trimStart_eq_self_iff : trimStart cs = cs ↔ ∀ c ∈ cs.head?, isBlank c = false := by
  constructor
  · intro h c hc
    cases cs with
    | nil => cases hc
    | cons d cs =>
      obtain rfl := Option.some.inj hc
      exact isBlank_head_trimStart h
  · intro h
    cases cs with
    | nil => rfl
    | cons c cs => exact trimStart_cons_of_not_blank (h c rfl) cs

/-- What trimming takes from the front of a text is white space. -/
theorem exists_trimStart (cs : List Char) :
    ∃ front, (∀ c ∈ front, isBlank c = true) ∧ cs = front ++ trimStart cs :=
  ⟨cs.takeWhile isBlank, List.all_eq_true.1 List.all_takeWhile,
    List.takeWhile_append_dropWhile.symm⟩

/-! ## Both ends -/

/-- What trimming takes from the end of a text is white space. -/
theorem exists_trimEnd (cs : List Char) :
    ∃ back, (∀ c ∈ back, isBlank c = true) ∧ cs = trimEnd cs ++ back := by
  obtain ⟨front, hfront, hcs⟩ := exists_trimStart cs.reverse
  refine ⟨front.reverse, fun c hc => hfront c (List.mem_reverse.1 hc), ?_⟩
  rw [trimEnd, ← List.reverse_append, ← hcs, List.reverse_reverse]

/-- Trimming the end leaves a beginning of the text. -/
theorem trimEnd_isPrefix (cs : List Char) : trimEnd cs <+: cs := by
  obtain ⟨back, -, hcs⟩ := exists_trimEnd cs
  exact ⟨back, hcs.symm⟩

/-- The end is trimmed once and for all. -/
theorem trimEnd_trimEnd (cs : List Char) : trimEnd (trimEnd cs) = trimEnd cs := by
  unfold trimEnd
  rw [List.reverse_reverse, trimStart_trimStart]

/-- Trimming takes white space from both ends, and nothing else. -/
theorem exists_trim (cs : List Char) :
    ∃ front back, (∀ c ∈ front, isBlank c = true) ∧ (∀ c ∈ back, isBlank c = true)
      ∧ cs = front ++ (trim cs ++ back) := by
  obtain ⟨front, hfront, hcs⟩ := exists_trimStart cs
  obtain ⟨back, hback, htrim⟩ := exists_trimEnd (trimStart cs)
  refine ⟨front, back, hfront, hback, ?_⟩
  rw [trim, ← htrim]
  exact hcs

/-- Trimming takes characters away and adds none. -/
theorem trim_sublist (cs : List Char) : (trim cs).Sublist cs :=
  (trimEnd_isPrefix _).sublist.trans (List.dropWhile_sublist isBlank)

/-- Trimming the end brings no white space to the front. -/
theorem trimStart_trim (cs : List Char) : trimStart (trim cs) = trim cs := by
  obtain ⟨blanks, hback⟩ := trimEnd_isPrefix (trimStart cs)
  unfold trim
  -- what is left begins as the text without its white space does
  cases h : trimEnd (trimStart cs) with
  | nil => rfl
  | cons c front =>
    rw [h, List.cons_append] at hback
    exact trimStart_cons_of_not_blank (isBlank_head_trimStart hback.symm) front

/-- Text that was trimmed is trimmed no further. -/
theorem trim_trim (cs : List Char) : trim (trim cs) = trim cs := by
  rw [trim, trimStart_trim, trim, trimEnd_trimEnd]

/-- A text stays as it is just when it is trimmed at both ends. -/
theorem trim_eq_self_iff : trim cs = cs ↔ IsTrimmed cs := by
  -- the end is the front of the reversed text
  have hlast : trimEnd cs = cs ↔ ∀ c ∈ cs.getLast?, isBlank c = false := by
    rw [← List.head?_reverse, ← trimStart_eq_self_iff, trimEnd, List.reverse_eq_iff]
  rw [IsTrimmed, ← hlast, ← trimStart_eq_self_iff]
  constructor
  · intro h
    have hstart : trimStart cs = cs := by
      rw [← h, trimStart_trim]
    refine ⟨hstart, ?_⟩
    rw [trim, hstart] at h
    exact h
  · rintro ⟨hstart, hend⟩
    rw [trim, hstart, hend]

/-- Text between trimmed ends is trimmed. -/
theorem IsTrimmed.around {front back : List Char} (hfront : IsTrimmed front) (hne : front ≠ [])
    (hback : IsTrimmed back) (hne' : back ≠ []) (middle : List Char) :
    IsTrimmed (front ++ middle ++ back) := by
  constructor
  · obtain ⟨c, front, rfl⟩ := List.exists_cons_of_ne_nil hne
    exact hfront.1
  · have hlast := List.getLast?_eq_some_getLast hne'
    rw [List.getLast?_append, hlast, Option.some_or, ← hlast]
    exact hback.2

/-- Text without white space is trimmed already. -/
theorem trimmed_of_forall {s : String} (h : ∀ c ∈ s.toList, isBlank c = false) :
    trimmed s = s := by
  have htrimmed : IsTrimmed s.toList :=
    ⟨fun c hc => h c (List.mem_of_head? hc), fun c hc => h c (List.mem_of_getLast? hc)⟩
  rw [trimmed, trim_eq_self_iff.2 htrimmed, String.ofList_toList]

end TableScan.Text
