import TableScan.Proofs.Location.Alternatives
import TableScan.Proofs.Results
import TableScan.Proofs.Text.Slices

/-!
# Brace expansion ends in fixpoints

Nothing is asked of a pattern here: its braces may be unbalanced, and any of its characters may take
several bytes. A pattern has a group to expand just when its first opening brace is closed
(`HasGroup`); what is found then is the pattern itself, cut at the commas and at the closing brace
(`BraceGroup.scan_spells`). Each alternative that is put in the place of the group makes the pattern
shorter, which is the induction of this module (`induction_on_groups`).

Expansion may also be told by the byte offsets at which a pattern is cut (`expandBySlices?`). There
a cut inside of a character is a failure, and so are calls that are nested deeper than a bound.

Main statement: expansion by byte offsets never fails, with calls no deeper than there are opening
braces; it gives one pattern at least, every pattern that it gives is made of characters of the
first one and stands for itself alone, and the pattern is its own expansion just when it has no
group (`braceAlternatives_fixpoints`).
-/

namespace TableScan.Location

open Text (offsetOf? slice? sliceFrom? utf8Length)

/-- `IsInside depth cs`: text in which, behind `depth` opening braces, none is closed that is not
open, and all are closed at the end. -/
def IsInside (depth : Nat) (cs : List Char) : Prop :=
  cs.count '\x7d' = cs.count '\x7b' + depth
    ∧ ∀ front, front <+: cs → front.count '\x7d' ≤ front.count '\x7b' + depth

/-- Holds of the text behind an opening brace, `depth` groups inside of it, that closes it. -/
def Closes (depth : Nat) (cs : List Char) : Prop :=
  ∃ inner back, cs = inner ++ '\x7d' :: back ∧ IsInside depth inner

/-- Holds of text whose first opening brace is closed. -/
def HasGroup (cs : List Char) : Prop :=
  ∃ front behind, cs = front ++ '\x7b' :: behind ∧ '\x7b' ∉ front ∧ Closes 0 behind

variable {depth : Nat} {c : Char} {cs front behind choice result : List Char}
  {choices : List (List Char)} {g : BraceGroup}

/-! ## Closing braces -/

theorem isInside_nil_iff : IsInside depth [] ↔ depth = 0 := by
  constructor
  · rintro ⟨h, -⟩
    simpa using h.symm
  · rintro rfl
    refine ⟨rfl, fun front hfront => ?_⟩
    obtain rfl := List.prefix_nil.1 hfront
    exact Nat.le_refl _

/-- One character further, as many braces are open as it opens or closes. -/
theorem isInside_cons_iff {before : Nat}
    (h : depth + [c].count '\x7d' = before + [c].count '\x7b') :
    IsInside before (c :: cs) ↔ IsInside depth cs := by
  -- count the first character apart from the rest, for either brace
  have hcount : ∀ (b : Char) (ds : List Char), (c :: ds).count b = [c].count b + ds.count b := by
    intro b ds
    rw [← List.count_append, List.singleton_append]
  unfold IsInside
  rw [hcount '\x7d' cs, hcount '\x7b' cs]
  constructor
  · rintro ⟨hclosed, hfronts⟩
    refine ⟨by omega, fun front hfront => ?_⟩
    have hlonger := hfronts (c :: front) ((List.prefix_cons_inj c).2 hfront)
    rw [hcount '\x7d' front, hcount '\x7b' front] at hlonger
    omega
  · rintro ⟨hclosed, hfronts⟩
    refine ⟨by omega, fun longer hlonger => ?_⟩
    rcases List.prefix_cons_iff.1 hlonger with rfl | ⟨front, rfl, hfront⟩
    · exact Nat.zero_le _
    · have hshorter := hfronts front hfront
      rw [hcount '\x7d' front, hcount '\x7b' front]
      omega

theorem closes_cons_iff {before : Nat} (hopen : c = '\x7d' → before ≠ 0)
    (h : depth + [c].count '\x7d' = before + [c].count '\x7b') :
    Closes before (c :: cs) ↔ Closes depth cs := by
  constructor
  · rintro ⟨inner, back, hcs, hinner⟩
    cases inner with
    | nil => exact absurd (isInside_nil_iff.1 hinner) (hopen (List.cons.inj hcs).1)
    | cons d inner =>
      obtain ⟨rfl, hrest⟩ := List.cons.inj hcs
      exact ⟨inner, back, hrest, (isInside_cons_iff h).1 hinner⟩
  · rintro ⟨inner, back, rfl, hinner⟩
    exact ⟨c :: inner, back, rfl, (isInside_cons_iff h).2 hinner⟩

namespace BraceGroup

/-- The alternatives of a group with the commas between them. -/
def inside (g : BraceGroup) : List Char := [','].intercalate g.choices

theorem inside_cons (c : Char) (g : BraceGroup) : (g.cons c).inside = c :: g.inside := by
  obtain ⟨first, others, back⟩ := g
  cases others with
  | nil => rfl
  | cons other others => rfl

theorem inside_consEmpty (g : BraceGroup) : g.consEmpty.inside = ',' :: g.inside := rfl

/-- Everything that the scan of a group can do with one character. -/
theorem scan_cons_cases (h : scan depth (c :: cs) = some g) :
    (c = '\x7d' ∧ g = ⟨[], [], cs⟩)
      ∨ ∃ d g', scan d cs = some g' ∧ (g = g'.cons c ∨ c = ',' ∧ g = g'.consEmpty) := by
  have hmap : ∀ {d : Nat} {f : BraceGroup → BraceGroup}, (scan d cs).map f = some g →
      ∃ d g', scan d cs = some g' ∧ g = f g' := by
    intro d f hd
    obtain ⟨g', hg', rfl⟩ := Option.map_eq_some_iff.1 hd
    exact ⟨d, g', hg', rfl⟩
  rw [scan.eq_def] at h
  simp only at h
  split at h
  · obtain ⟨d, g', hg', rfl⟩ := hmap h
    exact .inr ⟨d, g', hg', .inl rfl⟩
  · split at h
    · next hclose =>
      cases depth with
      | zero => exact .inl ⟨hclose, (Option.some.inj h).symm⟩
      | succ depth =>
        obtain ⟨d, g', hg', rfl⟩ := hmap h
        exact .inr ⟨d, g', hg', .inl rfl⟩
    · split at h
      · next hcomma =>
        obtain ⟨d, g', hg', rfl⟩ := hmap h
        exact .inr ⟨d, g', hg', .inr ⟨of_decide_eq_true (Bool.and_eq_true_iff.1 hcomma).1, rfl⟩⟩
      · obtain ⟨d, g', hg', rfl⟩ := hmap h
        exact .inr ⟨d, g', hg', .inl rfl⟩

/-- A group is the text that it was read from, cut at commas and at the closing brace. -/
theorem scan_spells (h : scan depth cs = some g) : cs = g.inside ++ '\x7d' :: g.back := by
  induction cs generalizing depth g with
  | nil => cases h
  | cons c cs ih =>
    rcases scan_cons_cases h with ⟨rfl, rfl⟩ | ⟨d, g', hg', rfl | ⟨rfl, rfl⟩⟩
    · rfl
    · rw [inside_cons]
      exact congrArg (c :: ·) (ih hg')
    · rw [inside_consEmpty]
      exact congrArg (',' :: ·) (ih hg')

/-- A group is read just where its opening brace is closed. -/
theorem isSome_scan_iff : (scan depth cs).isSome ↔ Closes depth cs := by
  induction cs generalizing depth with
  | nil =>
    refine ⟨fun h => (nomatch h), fun ⟨inner, back, hcs, _⟩ => ?_⟩
    cases inner with
    | nil => cases hcs
    | cons c inner => cases hcs
  | cons c cs ih =>
    -- an opening brace goes one group deeper, a closing one ends a group, others change nothing
    by_cases hopen : c = '\x7b'
    · subst hopen
      rw [scan_open, Option.isSome_map, ih]
      exact (closes_cons_iff (fun h => absurd h (by decide)) (by simp)).symm
    by_cases hclose : c = '\x7d'
    · subst hclose
      cases depth with
      | zero => exact ⟨fun _ => ⟨[], cs, rfl, isInside_nil_iff.2 rfl⟩, fun _ => rfl⟩
      | succ depth =>
        rw [scan_close, Option.isSome_map, ih]
        exact (closes_cons_iff (fun _ => Nat.succ_ne_zero depth) (by simp)).symm
    -- a comma only starts an alternative: whether the group ends is the same
    have hscan : (scan depth (c :: cs)).isSome = (scan depth cs).isSome := by
      rw [scan.eq_def]
      simp only [if_neg hopen, if_neg hclose]
      split <;> exact Option.isSome_map
    have hcount : [c].count '\x7d' = [c].count '\x7b' := by
      rw [List.count_eq_zero.2, List.count_eq_zero.2]
      · exact fun h => hopen (List.mem_singleton.1 h).symm
      · exact fun h => hclose (List.mem_singleton.1 h).symm
    rw [hscan, ih]
    exact (closes_cons_iff (fun h => absurd h hclose) (by rw [hcount])).symm

end BraceGroup

/-- Whether a text has a group is decided behind its first opening brace. -/
theorem hasGroup_iff (h : '\x7b' ∉ front) :
    HasGroup (front ++ '\x7b' :: behind) ↔ (BraceGroup.scan 0 behind).isSome := by
  rw [BraceGroup.isSome_scan_iff]
  constructor
  · rintro ⟨front', behind', hcs, hfront, hcloses⟩
    -- a text has one first opening brace, so both cuts are the same
    have hdrop := Text.dropWhile_of_first h behind
    rw [hcs, Text.dropWhile_of_first hfront] at hdrop
    rwa [(List.cons.inj hdrop).2] at hcloses
  · exact fun hcloses => ⟨front, behind, rfl, h, hcloses⟩

theorem not_hasGroup_of_not_mem (h : '\x7b' ∉ cs) : ¬ HasGroup cs := by
  rintro ⟨front, behind, rfl, -, -⟩
  exact h (List.mem_append_right front List.mem_cons_self)

/-! ## Expansion, group by group -/

theorem sublist_of_mem_intercalate {separator : List Char} (h : choice ∈ choices) :
    choice.Sublist (separator.intercalate choices) := by
  induction choices with
  | nil => cases h
  | cons first more ih =>
    cases more with
    | nil =>
      obtain rfl := List.mem_singleton.1 h
      rw [List.intercalate_singleton]
    | cons other more =>
      rw [List.intercalate_cons_cons]
      rcases List.mem_cons.1 h with rfl | h
      · exact (List.sublist_append_left _ _).trans (List.sublist_append_left _ _)
      · exact (ih h).trans (List.sublist_append_right _ _)

/-- What stands for a group is made of the characters of the text, and is shorter. -/
theorem sublist_of_choice (hg : BraceGroup.scan 0 behind = some g) (hmem : choice ∈ g.choices) :
    (front ++ choice ++ g.back).Sublist (front ++ '\x7b' :: behind)
      ∧ (front ++ choice ++ g.back).length < (front ++ '\x7b' :: behind).length := by
  have hchoice : choice.Sublist g.inside := sublist_of_mem_intercalate hmem
  rw [BraceGroup.scan_spells hg, List.append_assoc]
  constructor
  · exact (List.Sublist.refl front).append
      ((hchoice.append (List.sublist_cons_self _ _)).cons _)
  -- both braces of the group are gone
  · have hle := hchoice.length_le
    simp only [List.length_append, List.length_cons]
    omega

/-- A fact about all texts follows from what it is for a text without an opening brace, for one
whose first opening brace is not closed, and for a group when it holds of what stands for it. -/
theorem induction_on_groups {motive : List Char → Prop}
    (plain : ∀ cs, '\x7b' ∉ cs → motive cs)
    (unclosed : ∀ front behind, '\x7b' ∉ front → BraceGroup.scan 0 behind = none →
      motive (front ++ '\x7b' :: behind))
    (group : ∀ front behind g, '\x7b' ∉ front → BraceGroup.scan 0 behind = some g →
      (∀ choice ∈ g.choices, motive (front ++ choice ++ g.back)) →
      motive (front ++ '\x7b' :: behind))
    (cs : List Char) : motive cs := by
  by_cases hmem : '\x7b' ∈ cs
  · obtain ⟨front, behind, hcs, hfront⟩ := List.eq_append_cons_of_mem hmem
    cases hg : BraceGroup.scan 0 behind with
    | none => exact hcs ▸ unclosed front behind hfront hg
    | some g =>
      refine hcs ▸ group front behind g hfront hg fun choice hchoice => ?_
      exact induction_on_groups plain unclosed group (front ++ choice ++ g.back)
  · exact plain cs hmem
termination_by cs.length
decreasing_by exact hcs ▸ (sublist_of_choice hg hchoice).2

/-- A text whose first opening brace is not closed stands for itself alone. -/
theorem expandChars_unclosed (h : '\x7b' ∉ front) (hg : BraceGroup.scan 0 behind = none) :
    expandChars (front ++ '\x7b' :: behind) = [front ++ '\x7b' :: behind] := by
  have hdrop := Text.dropWhile_of_first h behind
  rw [expandChars]
  split
  · rfl
  · next heq =>
    obtain ⟨-, rfl⟩ := List.cons.inj (hdrop.symm.trans heq)
    split
    · rfl
    · next g hsome => cases hg.symm.trans hsome

theorem expandChars_of_not_hasGroup (h : ¬ HasGroup cs) : expandChars cs = [cs] := by
  by_cases hmem : '\x7b' ∈ cs
  · obtain ⟨front, behind, rfl, hfront⟩ := List.eq_append_cons_of_mem hmem
    rw [hasGroup_iff hfront, Option.not_isSome_iff_eq_none] at h
    exact expandChars_unclosed hfront h
  · exact expandChars_of_not_mem hmem

theorem expandChars_ne_nil (cs : List Char) : expandChars cs ≠ [] := by
  induction cs using induction_on_groups with
  | plain cs h =>
    rw [expandChars_of_not_mem h]
    exact List.cons_ne_nil _ _
  | unclosed front behind h hg =>
    rw [expandChars_unclosed h hg]
    exact List.cons_ne_nil _ _
  | group front behind g h hg ih =>
    rw [expandChars_group h hg]
    exact fun hnil => ih g.first List.mem_cons_self
      (List.flatMap_eq_nil_iff.1 hnil g.first List.mem_cons_self)

/-- What a text stands for is made of its characters and has no group. -/
theorem of_mem_expandChars (h : result ∈ expandChars cs) :
    result.Sublist cs ∧ ¬ HasGroup result := by
  induction cs using induction_on_groups with
  | plain cs hmem =>
    rw [expandChars_of_not_mem hmem, List.mem_singleton] at h
    subst h
    exact ⟨List.Sublist.refl _, not_hasGroup_of_not_mem hmem⟩
  | unclosed front behind hfront hg =>
    rw [expandChars_unclosed hfront hg, List.mem_singleton] at h
    subst h
    refine ⟨List.Sublist.refl _, ?_⟩
    rw [hasGroup_iff hfront, hg]
    exact Bool.false_ne_true
  | group front behind g hfront hg ih =>
    rw [expandChars_group hfront hg] at h
    -- it came from the text with one alternative in the place of the group
    obtain ⟨choice, hchoice, h⟩ := List.mem_flatMap.1 h
    obtain ⟨hsub, hnone⟩ := ih choice hchoice h
    exact ⟨hsub.trans (sublist_of_choice hg hchoice).1, hnone⟩

/-- A text is its own expansion just when its first opening brace is not closed. -/
theorem expandChars_eq_self_iff : expandChars cs = [cs] ↔ ¬ HasGroup cs :=
  ⟨fun h => (of_mem_expandChars (h ▸ List.mem_singleton_self cs)).2, expandChars_of_not_hasGroup⟩

/-! ## Expansion by byte offsets -/

/-- The byte offsets of the commas between the alternatives of a group and of its closing brace, in
a text that begins at the offset `start`; `depth` braces are open in front of it. -/
def separators? (depth start : Nat) : List Char → Option (List Nat)
  | [] => none
  | c :: cs =>
    let behind := start + c.utf8Size
    if c = '\x7b' then separators? (depth + 1) behind cs
    else if c = '\x7d' then
      if depth = 1 then some [start] else separators? (depth - 1) behind cs
    else if c = ',' && depth == 1 then (separators? depth behind cs).map (start :: ·)
    else separators? depth behind cs

/-- Each offset of a list with the one behind it. -/
def windows (bounds : List Nat) : List (Nat × Nat) := bounds.zip bounds.tail

/-- The patterns that a pattern stands for, where it is cut at byte offsets. Each call may make
calls of its own, `calls` deep; deeper ones fail. -/
def expandBySlices? : (calls : Nat) → (pattern : String) → Option (List String)
  | 0, _ => none
  | calls + 1, pattern =>
    match offsetOf? '\x7b' pattern with
    | none => some [pattern]
    | some opened => do
      let group ← sliceFrom? pattern opened
      match separators? 0 opened group.toList with
      | none => some [pattern]
      | some separators => do
        let closed ← separators.getLast?
        let front ← slice? pattern 0 opened
        let back ← sliceFrom? pattern (closed + 1)
        let expanded ← (windows (opened :: separators)).mapM fun (before, behind) => do
          let choice ← slice? pattern (before + 1) behind
          expandBySlices? calls (front ++ choice ++ back)
        return expanded.flatten

/-- The byte offsets at which alternatives end that begin at the offset `start`, each but the first
one byte behind the end of the one before. -/
def endsFrom (start : Nat) : List (List Char) → List Nat
  | [] => []
  | choice :: more =>
    (start + utf8Length choice) :: endsFrom (start + utf8Length choice + 1) more

theorem endsFrom_cons (start : Nat) (c : Char) (first : List Char) (others : List (List Char)) :
    endsFrom start ((c :: first) :: others) = endsFrom (start + c.utf8Size) (first :: others) := by
  rw [endsFrom, endsFrom, Text.utf8Length_cons, ← Nat.add_assoc]

theorem getLast?_endsFrom (start : Nat) (hne : choices ≠ []) :
    (endsFrom start choices).getLast? = some (start + utf8Length ([','].intercalate choices)) := by
  induction choices generalizing start with
  | nil => exact absurd rfl hne
  | cons choice more ih =>
    cases more with
    | nil => rw [List.intercalate_singleton, endsFrom, endsFrom, List.getLast?_singleton]
    | cons other more =>
      have hlast := ih (start + utf8Length choice + 1) (List.cons_ne_nil _ _)
      rw [endsFrom, List.getLast?_cons, hlast, List.intercalate_cons_cons, Text.utf8Length_append,
        Text.utf8Length_append, ← Nat.add_assoc, ← Nat.add_assoc]
      rfl

/-- The offsets found are those at which the alternatives of the group end. -/
theorem separators?_eq (depth start : Nat) (cs : List Char) :
    separators? (depth + 1) start cs
      = (BraceGroup.scan depth cs).map fun g => endsFrom start g.choices := by
  induction cs generalizing depth start with
  | nil => rfl
  | cons c cs ih =>
    -- a character of an alternative moves its end, and those of all that follow
    have hcons : ∀ d, separators? (d + 1) (start + c.utf8Size) cs
        = ((BraceGroup.scan d cs).map (BraceGroup.cons c)).map
          fun g => endsFrom start g.choices := by
      intro d
      rw [ih, Option.map_map]
      exact congrArg (Option.map · _) (funext fun g => (endsFrom_cons start c _ _).symm)
    rw [separators?, BraceGroup.scan.eq_def]
    simp only
    split
    · exact hcons (depth + 1)
    · split
      · cases depth with
        | zero => rfl
        | succ depth => exact hcons depth
      · have hbetween : (decide (c = ',') && depth + 1 == 1)
            = (decide (c = ',') && depth == 0) := by
          cases depth with
          | zero => rfl
          | succ depth => rfl
        rw [hbetween]
        split
        · next hcomma =>
          obtain rfl : c = ',' := of_decide_eq_true (Bool.and_eq_true_iff.1 hcomma).1
          rw [ih, Option.map_map, Option.map_map]
          rfl
        · exact hcons depth

/-- The slices between the offsets of the separators are the alternatives. -/
theorem mapM_slices {α : Type} (f : String → Option α) {text : String} {back : List Char}
    (hsize : c.utf8Size = 1)
    (htext : text = String.ofList (front ++ c :: ([','].intercalate choices ++ back))) :
    ((windows (utf8Length front :: endsFrom (utf8Length front + 1) choices)).mapM
        fun (before, behind) => (slice? text (before + 1) behind).bind f)
      = choices.mapM fun choice => f (String.ofList choice) := by
  induction choices generalizing c front with
  | nil => rfl
  | cons choice more ih =>
    have hstart : utf8Length (front ++ [c]) = utf8Length front + 1 := by
      rw [Text.utf8Length_append, Text.utf8Length_cons, hsize, Text.utf8Length_nil]
    have hend : utf8Length (front ++ c :: choice) = utf8Length front + 1 + utf8Length choice := by
      rw [← hstart, ← Text.utf8Length_append, List.append_assoc, List.singleton_append]
    -- what stands behind the alternative: the end of the group, or a comma and the next one
    obtain ⟨rest, hrest⟩ : ∃ rest, text = String.ofList (front ++ [c] ++ choice ++ rest) := by
      cases more with
      | nil => exact ⟨back, by rw [htext, List.intercalate_singleton]; simp⟩
      | cons other more =>
        exact ⟨',' :: ([','].intercalate (other :: more) ++ back), by
          rw [htext, List.intercalate_cons_cons]; simp⟩
    have hslice : slice? text (utf8Length front + 1) (utf8Length front + 1 + utf8Length choice)
        = some (String.ofList choice) := by
      rw [hrest, ← hstart]
      exact Text.slice?_ofList _ _ _
    have hmore : ((windows ((utf8Length front + 1 + utf8Length choice)
          :: endsFrom (utf8Length front + 1 + utf8Length choice + 1) more)).mapM
        fun (before, behind) => (slice? text (before + 1) behind).bind f)
          = more.mapM fun choice => f (String.ofList choice) := by
      rw [← hend]
      cases more with
      | nil => rfl
      | cons other more =>
        have hnext : text = String.ofList
            ((front ++ c :: choice) ++ ',' :: ([','].intercalate (other :: more) ++ back)) := by
          rw [htext, List.intercalate_cons_cons]
          simp
        exact ih rfl hnext
    have hwindows : windows (utf8Length front :: endsFrom (utf8Length front + 1) (choice :: more))
        = (utf8Length front, utf8Length front + 1 + utf8Length choice)
          :: windows ((utf8Length front + 1 + utf8Length choice)
            :: endsFrom (utf8Length front + 1 + utf8Length choice + 1) more) := rfl
    rw [hwindows, List.mapM_cons, hmore, List.mapM_cons]
    simp only [hslice, Option.bind_some]

/-- The slice behind the closing brace of a group. -/
theorem sliceFrom?_back (hg : BraceGroup.scan 0 behind = some g) :
    sliceFrom? (String.ofList (front ++ '\x7b' :: behind))
      (utf8Length front + 1 + utf8Length ([','].intercalate g.choices) + 1)
        = some (String.ofList g.back) := by
  have hsplit : front ++ '\x7b' :: behind
      = front ++ ['\x7b'] ++ [','].intercalate g.choices ++ ['\x7d'] ++ g.back := by
    rw [BraceGroup.scan_spells hg]
    simp [BraceGroup.inside]
  have hlength : utf8Length front + 1 + utf8Length ([','].intercalate g.choices) + 1
      = utf8Length (front ++ ['\x7b'] ++ [','].intercalate g.choices ++ ['\x7d']) := by
    simp only [Text.utf8Length_append]
    rfl
  rw [hsplit, hlength]
  exact Text.sliceFrom?_ofList _ g.back

/-- What stands for a group has fewer opening braces. -/
theorem openBraces_of_choice (hg : BraceGroup.scan 0 behind = some g) (hmem : choice ∈ g.choices) :
    openBraces (front ++ choice ++ g.back) < openBraces (front ++ '\x7b' :: behind) := by
  have hle := openBraces_choice_le hg hmem
  have hopen : openBraces ('\x7b' :: behind) = openBraces behind + 1 := List.count_cons_self
  rw [openBraces_append, openBraces_append, openBraces_append, hopen]
  omega

/-- Expansion by byte offsets never cuts a character and gives what expansion gives. It makes calls
no deeper than there are opening braces: each of them leaves one brace less. -/
theorem expandBySlices?_eq (cs : List Char) {calls : Nat} (h : openBraces cs < calls) :
    expandBySlices? calls (String.ofList cs) = some ((expandChars cs).map String.ofList) := by
  obtain ⟨calls, rfl⟩ := Nat.exists_eq_succ_of_ne_zero (Nat.ne_zero_of_lt h)
  induction cs using induction_on_groups generalizing calls with
  | plain cs hnone =>
    rw [expandChars_of_not_mem hnone, expandBySlices?, Text.offsetOf?_of_not_mem hnone]
    rfl
  | unclosed front behind hfirst hg =>
    have hfound : separators? 0 (utf8Length front) ('\x7b' :: behind) = none := by
      show separators? 1 (utf8Length front + 1) behind = none
      rw [separators?_eq, hg, Option.map_none]
    rw [expandChars_unclosed hfirst hg, expandBySlices?, Text.offsetOf?_append hfirst]
    simp only [Text.sliceFrom?_ofList, Option.bind_eq_bind, Option.bind_some,
      String.toList_ofList, hfound]
    rfl
  | group front behind g hfirst hg ih =>
    have hne : g.choices ≠ [] := List.cons_ne_nil _ _
    have hfound : separators? 0 (utf8Length front) ('\x7b' :: behind)
        = some (endsFrom (utf8Length front + 1) g.choices) := by
      show separators? 1 (utf8Length front + 1) behind = _
      rw [separators?_eq, hg, Option.map_some]
    have htext : front ++ '\x7b' :: behind
        = front ++ '\x7b' :: ([','].intercalate g.choices ++ '\x7d' :: g.back) :=
      congrArg (front ++ '\x7b' :: ·) (BraceGroup.scan_spells hg)
    -- one call deeper for each alternative, with one opening brace less
    have hchoices : (g.choices.mapM fun choice => expandBySlices? calls
        (String.ofList front ++ String.ofList choice ++ String.ofList g.back))
          = some (g.choices.map fun choice =>
              (expandChars (front ++ choice ++ g.back)).map String.ofList) := by
      refine Results.mapM_eq_some fun choice hchoice => ?_
      have hfewer : openBraces (front ++ choice ++ g.back) < calls :=
        Nat.lt_of_lt_of_le (openBraces_of_choice hg hchoice) (Nat.le_of_lt_succ h)
      obtain ⟨calls, rfl⟩ := Nat.exists_eq_succ_of_ne_zero (Nat.ne_zero_of_lt hfewer)
      rw [← String.ofList_append, ← String.ofList_append]
      exact ih choice hchoice calls hfewer
    rw [expandChars_group hfirst hg, expandBySlices?, Text.offsetOf?_append hfirst]
    simp only [Text.sliceFrom?_ofList, Option.bind_eq_bind, Option.bind_some,
      String.toList_ofList, hfound, getLast?_endsFrom _ hne, Text.slice?_front_ofList,
      sliceFrom?_back hg]
    rw [mapM_slices _ rfl (congrArg String.ofList htext), hchoices, List.map_flatMap,
      List.flatMap_def]
    rfl

/-- Brace expansion, for every pattern. -/
theorem braceAlternatives_fixpoints (pattern : String) :
    (∀ calls, openBraces pattern.toList < calls →
        expandBySlices? calls pattern = some (braceAlternatives pattern))
      ∧ braceAlternatives pattern ≠ []
      ∧ (∀ result ∈ braceAlternatives pattern,
          braceAlternatives result = [result] ∧ result.toList.Sublist pattern.toList)
      ∧ (braceAlternatives pattern = [pattern] ↔ ¬ HasGroup pattern.toList) := by
  -- on strings as on characters, since a string is its characters
  have hself : ∀ s, braceAlternatives s = [s] ↔ ¬ HasGroup s.toList := by
    intro s
    have hsingle : [s] = [s.toList].map String.ofList := by
      rw [List.map_singleton, String.ofList_toList]
    have hinjective : Function.Injective (List.map String.ofList) :=
      List.map_injective_iff.2 fun _ _ => String.ofList_injective
    rw [← expandChars_eq_self_iff, braceAlternatives, hsingle, hinjective.eq_iff]
  refine ⟨fun calls hcalls => ?_, ?_, fun result hresult => ?_, hself pattern⟩
  · have hslices := expandBySlices?_eq pattern.toList hcalls
    rwa [String.ofList_toList] at hslices
  · exact mt List.map_eq_nil_iff.1 (expandChars_ne_nil _)
  · obtain ⟨cs, hcs, rfl⟩ := List.mem_map.1 hresult
    obtain ⟨hsub, hnone⟩ := of_mem_expandChars hcs
    rw [hself, String.toList_ofList]
    exact ⟨hnone, hsub⟩

end TableScan.Location
