import Mathlib.Data.List.TakeWhile
import TableScan.Text.Split

/-!
# Text between separators

Cutting at a separator undoes joining with it, where no part holds one. The whole text may be cut
(`split_intercalate`), or its front alone (`splitFirst_append`).
-/

namespace TableScan.Text

variable {separator : Char} {cs ds : List Char}

/-! ## Every separator -/

/-- There is always a part, if only the empty one. -/
theorem splitChars_ne_nil (separator : Char) (cs : List Char) : splitChars separator cs ≠ [] := by
  cases cs with
  | nil => exact List.cons_ne_nil _ _
  | cons c cs =>
    rw [splitChars]
    split
    · exact List.cons_ne_nil _ _
    · split
      · exact List.cons_ne_nil _ _
      · exact List.cons_ne_nil _ _

/-- Without a separator the text is its only part. -/
theorem splitChars_of_not_mem (h : separator ∉ cs) : splitChars separator cs = [cs] := by
  induction cs with
  | nil => rfl
  | cons c cs ih =>
    have hc : ¬ c = separator := fun heq => h (heq ▸ List.mem_cons_self)
    have hcs : separator ∉ cs := fun hmem => h (List.mem_cons_of_mem _ hmem)
    rw [splitChars, if_neg hc, ih hcs]

/-- At a separator the text can be cut in two, each with its own parts. -/
theorem splitChars_append (separator : Char) (cs ds : List Char) :
    splitChars separator (cs ++ separator :: ds)
      = splitChars separator cs ++ splitChars separator ds := by
  -- on the text in front of the separator, of which the separators may be more
  induction cs with
  | nil =>
    show splitChars separator (separator :: ds) = [[]] ++ splitChars separator ds
    rw [splitChars, if_pos rfl]
    rfl
  | cons c cs ih =>
    rw [List.cons_append, splitChars, splitChars]
    split
    · rw [ih]
      rfl
    · rw [ih]
      -- the first part is longer by one character on both sides
      cases hparts : splitChars separator cs with
      | nil => exact absurd hparts (splitChars_ne_nil separator cs)
      | cons part parts => rfl

/-- A list without separators in its members comes back from the text between them. -/
theorem split_intercalate {parts : List String} (hne : parts ≠ [])
    (h : ∀ part ∈ parts, separator ∉ part.toList) :
    split separator ((String.singleton separator).intercalate parts) = parts := by
  -- on the parts: a separator stands behind each but the last one
  induction parts with
  | nil => exact absurd rfl hne
  | cons part rest ih =>
    obtain ⟨hpart, hrest⟩ := List.forall_mem_cons.1 h
    cases rest with
    | nil =>
      rw [String.intercalate_singleton, split, splitChars_of_not_mem hpart, List.map_singleton,
        String.ofList_toList]
    | cons other rest =>
      have hmore := ih (List.cons_ne_nil _ _) hrest
      have hjoined : ((String.singleton separator).intercalate (part :: other :: rest)).toList
          = part.toList
            ++ separator :: ((String.singleton separator).intercalate (other :: rest)).toList := by
        rw [String.intercalate_cons_cons, String.toList_append, String.toList_append,
          List.append_assoc, String.toList_singleton, List.singleton_append]
      rw [split] at hmore ⊢
      rw [hjoined, splitChars_append, List.map_append, hmore, splitChars_of_not_mem hpart,
        List.map_singleton, String.ofList_toList]
      rfl

/-- The parts of a text are made of its characters. -/
theorem sublist_of_mem_splitChars {part : List Char} (h : part ∈ splitChars separator cs) :
    part.Sublist cs := by
  -- a character either ends a part or is the first of the next one
  induction cs generalizing part with
  | nil =>
    obtain rfl := List.mem_singleton.1 h
    exact List.nil_sublist _
  | cons c cs ih =>
    rw [splitChars] at h
    split at h
    · rcases List.mem_cons.1 h with rfl | h
      · exact List.nil_sublist _
      · exact (ih h).cons c
    · split at h
      · obtain rfl := List.mem_singleton.1 h
        exact (List.nil_sublist cs).cons_cons c
      · next front parts hparts =>
        rw [hparts] at ih
        rcases List.mem_cons.1 h with rfl | h
        · exact (ih List.mem_cons_self).cons_cons c
        · exact (ih (List.mem_cons_of_mem _ h)).cons c

/-- The parts of a string are made of its characters. -/
theorem sublist_of_mem_split {s part : String} (h : part ∈ split separator s) :
    part.toList.Sublist s.toList := by
  obtain ⟨cs, hcs, rfl⟩ := List.mem_map.1 h
  rw [String.toList_ofList]
  exact sublist_of_mem_splitChars hcs

/-- No part holds a separator. -/
theorem not_mem_of_mem_split {s part : String} (h : part ∈ split separator s) :
    separator ∉ part.toList := by
  obtain ⟨cs, hcs, rfl⟩ := List.mem_map.1 h
  rw [String.toList_ofList]
  exact not_mem_of_mem_splitChars hcs

/-! ## The first separator -/

/-- What stands in front of the first `c`. -/
theorem takeWhile_of_first {c : Char} {front : List Char} (h : c ∉ front) (behind : List Char) :
    (front ++ c :: behind).takeWhile (· != c) = front := by
  have hfront : ∀ d ∈ front, (d != c) = true := fun d hd => bne_iff_ne.2 fun heq => h (heq ▸ hd)
  rw [List.takeWhile_append_of_pos hfront, List.takeWhile_cons_of_neg (by simp), List.append_nil]

/-- The first `c` and what stands behind it. -/
theorem dropWhile_of_first {c : Char} {front : List Char} (h : c ∉ front) (behind : List Char) :
    (front ++ c :: behind).dropWhile (· != c) = c :: behind := by
  have hfront : ∀ d ∈ front, (d != c) = true := fun d hd => bne_iff_ne.2 fun heq => h (heq ▸ hd)
  rw [List.dropWhile_append_of_pos hfront, List.dropWhile_cons_of_neg (by simp)]

/-- Where there is no `c`, nothing stands behind it. -/
theorem dropWhile_of_not_mem {c : Char} {cs : List Char} (h : c ∉ cs) :
    cs.dropWhile (· != c) = [] :=
  List.dropWhile_eq_nil_iff.2 fun _ hd => bne_iff_ne.2 fun heq => h (heq ▸ hd)

/-- A text without a separator is not cut. -/
theorem splitFirst_of_not_mem {s : String} (h : separator ∉ s.toList) :
    splitFirst separator s = (s, none) := by
  have hdrop : s.toList.dropWhile (· != separator) = [] := dropWhile_of_not_mem h
  rw [splitFirst]
  simp only [hdrop]

/-- The text is cut at the first separator, whatever others stand behind it. -/
theorem splitFirst_append {front : String} (h : separator ∉ front.toList) (behind : String) :
    splitFirst separator (front ++ String.singleton separator ++ behind)
      = (front, some behind) := by
  have hchars : (front ++ String.singleton separator ++ behind).toList
      = front.toList ++ separator :: behind.toList := by
    rw [String.toList_append, String.toList_append, String.toList_singleton, List.append_assoc,
      List.singleton_append]
  rw [splitFirst]
  simp only [hchars, takeWhile_of_first h, dropWhile_of_first h, String.ofList_toList]

/-- What stands behind the first separator is made of characters of the text. -/
theorem sublist_of_splitFirst {s front behind : String}
    (h : splitFirst separator s = (front, some behind)) : behind.toList.Sublist s.toList := by
  rw [splitFirst] at h
  simp only at h
  split at h
  · cases h
  · next c after hdrop =>
    obtain ⟨-, hbehind⟩ := Prod.mk.inj h
    rw [← Option.some.inj hbehind, String.toList_ofList]
    have hsub := List.dropWhile_sublist (l := s.toList) (· != separator)
    rw [hdrop] at hsub
    exact (List.sublist_cons_self c after).trans hsub

end TableScan.Text
