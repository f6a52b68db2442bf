/-!
# Locations: brace groups

`{a,b}` in a path pattern stands for either alternative. `braceAlternatives` lists the patterns that
one stands for, the leftmost group varying slowest. Groups may hold groups; a pattern whose first
brace is not closed stands for itself alone.

Expanding a group glues each alternative between what stands before and behind the group. The
result has one opening brace less, which is why expansion ends (`openBraces_choice_le`).
-/

namespace TableScan.Location

/-- A brace group behind its opening brace: the alternatives, of which there is at least one, and
what follows the closing brace. -/
structure BraceGroup where
  first : List Char
  others : List (List Char)
  back : List Char
  deriving DecidableEq, Repr

namespace BraceGroup

def choices (g : BraceGroup) : List (List Char) := g.first :: g.others

def cons (c : Char) (g : BraceGroup) : BraceGroup := { g with first := c :: g.first }

def consEmpty (g : BraceGroup) : BraceGroup := ⟨[], g.choices, g.back⟩

/-- Reads a group behind its opening brace. Commas and braces of the groups inside, `depth` of
which are open, belong to the alternatives. -/
def scan (depth : Nat) : List Char → Option BraceGroup
  | [] => none
  | c :: cs =>
    if c = '\x7b' then (scan (depth + 1) cs).map (cons c)
    else if c = '\x7d' then
      match depth with
      | 0 => some ⟨[], [], cs⟩
      | d + 1 => (scan d cs).map (cons c)
    else if c = ',' && depth == 0 then (scan depth cs).map consEmpty
    else (scan depth cs).map (cons c)

end BraceGroup

def openBraces (cs : List Char) : Nat := cs.count '\x7b'

/-- The braces of an alternative and of what follows its group all stood behind the opening one. -/
theorem openBraces_choice_le {depth : Nat} {cs choice : List Char} {g : BraceGroup}
    (h : BraceGroup.scan depth cs = some g) (hc : choice ∈ g.choices) :
    openBraces choice + openBraces g.back ≤ openBraces cs := by
  induction cs generalizing depth g choice with
  | nil => simp [BraceGroup.scan] at h
  | cons c cs ih =>
    have hcons : ∀ {d : Nat}, (BraceGroup.scan d cs).map (BraceGroup.cons c) = some g →
        openBraces choice + openBraces g.back ≤ openBraces (c :: cs) := by
      intro d hd
      obtain ⟨g', hg', rfl⟩ := Option.map_eq_some_iff.1 hd
      simp only [BraceGroup.choices, BraceGroup.cons, List.mem_cons] at hc
      rcases hc with rfl | hc
      · have : openBraces g'.first + openBraces g'.back ≤ openBraces cs :=
              ih hg' (by simp [BraceGroup.choices])
        simp only [openBraces, List.count_cons, BraceGroup.cons] at this ⊢; omega
      · have : openBraces choice + openBraces g'.back ≤ openBraces cs :=
              ih hg' (by simp [BraceGroup.choices, hc])
        simp only [openBraces, List.count_cons, BraceGroup.cons] at this ⊢; omega
    simp only [BraceGroup.scan] at h
    split at h
    · exact hcons h
    · split at h
      · split at h
        · cases h
          simp only [BraceGroup.choices, List.mem_cons, List.not_mem_nil, or_false] at hc
          subst hc
          simp only [openBraces, List.count_nil, List.count_cons]; omega
        · exact hcons h
      · split at h
        · obtain ⟨g', hg', rfl⟩ := Option.map_eq_some_iff.1 h
          simp only [BraceGroup.choices, BraceGroup.consEmpty, List.mem_cons] at hc
          rcases hc with rfl | hc
          · have : openBraces g'.first + openBraces g'.back ≤ openBraces cs :=
              ih hg' (by simp [BraceGroup.choices])
            simp only [openBraces, List.count_cons, List.count_nil, BraceGroup.consEmpty] at this ⊢
            omega
          · have : openBraces choice + openBraces g'.back ≤ openBraces cs :=
              ih hg' (by simpa [BraceGroup.choices] using hc)
            simp only [openBraces, List.count_cons, BraceGroup.consEmpty] at this ⊢; omega
        · exact hcons h

theorem openBraces_takeWhile (cs : List Char) : openBraces (cs.takeWhile (· != '\x7b')) = 0 := by
  rw [openBraces, List.count_eq_zero]
  intro h
  induction cs with
  | nil => simp at h
  | cons c cs ih =>
    rw [List.takeWhile_cons] at h
    split at h
    · next hc =>
      rcases List.mem_cons.1 h with h | h
      · simp [← h] at hc
      · exact ih h
    · simp at h

theorem openBraces_dropWhile (cs : List Char) :
    openBraces (cs.dropWhile (· != '\x7b')) = openBraces cs := by
  have h : openBraces (cs.takeWhile (· != '\x7b') ++ cs.dropWhile (· != '\x7b'))
      = openBraces cs := by rw [List.takeWhile_append_dropWhile]
  rw [openBraces, List.count_append] at h
  have h0 := openBraces_takeWhile cs
  simp only [openBraces] at h h0 ⊢
  omega

/-- The patterns that a pattern with brace groups stands for. -/
def expandChars (cs : List Char) : List (List Char) :=
  let front := cs.takeWhile (· != '\x7b')
  match _h : cs.dropWhile (· != '\x7b') with
  | [] => [cs]
  | _ :: inner =>
    match _hg : BraceGroup.scan 0 inner with
    | none => [cs]
    | some g => g.choices.attach.flatMap fun ⟨choice, _⟩ => expandChars (front ++ choice ++ g.back)
termination_by openBraces cs
decreasing_by
  next hmem =>
  have hle := openBraces_choice_le _hg hmem
  have hfront := openBraces_takeWhile cs
  have hcs := openBraces_dropWhile cs
  rw [_h] at hcs
  have hbrace : ∀ (l : List Char) (c : Char) (r : List Char),
      l.dropWhile (· != '\x7b') = c :: r → c = '\x7b' := by
    intro l
    induction l with
    | nil => simp
    | cons d l ih =>
      intro c r hd
      rw [List.dropWhile_cons] at hd
      split at hd
      · exact ih c r hd
      · next hne => cases hd; simpa using hne
  have hc := hbrace _ _ _ _h
  simp only [openBraces, List.count_append, List.count_cons, hc] at *
  simp at *
  omega

def braceAlternatives (pattern : String) : List String :=
  (expandChars pattern.toList).map String.ofList

end TableScan.Location
