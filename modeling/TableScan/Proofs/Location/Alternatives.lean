import Mathlib.Data.List.Basic
import TableScan.Location.Braces
import TableScan.Proofs.Text.Splitting

/-!
# Brace groups stand for cross products

A pattern whose braces are balanced is a tree: characters and groups, and the alternatives of a
group are patterns again, in which a comma stands inside a group of its own only (`IsPattern`). What
such a pattern stands for is said on the tree (`expansions`): a group stands for what its
alternatives stand for, one after another, and pieces side by side for all ways of taking one of
each, the leftmost varying slowest.

Expansion does not see the tree. It finds the first group in the text, puts each alternative in its
place and reads the whole again. Main statement: the alternatives of a pattern's text are the
expansions of its tree, in order and with all repetitions (`braceAlternatives_patternChars`). The
induction is on the groups that are left; what stands inside of a group passes the scan for the end
of the group unread (`scan_patternChars`).
-/

namespace TableScan.Location

/-! ## Trees of patterns -/

/-- A character of a pattern, or a group of alternatives, of which there is at least one. -/
inductive BracePiece where
  | plain (c : Char)
  | group (first : List BracePiece) (others : List (List BracePiece))

open BracePiece

mutual

def pieceChars : BracePiece → List Char
  | .plain c => [c]
  | .group first others => '\x7b' :: (patternChars first ++ othersChars others)

/-- The text of a pattern. -/
def patternChars : List BracePiece → List Char
  | [] => []
  | piece :: rest => pieceChars piece ++ patternChars rest

/-- The text of a group behind its first alternative: each of the others behind a comma, and the
closing brace. -/
def othersChars : List (List BracePiece) → List Char
  | [] => ['\x7d']
  | alternative :: rest => ',' :: (patternChars alternative ++ othersChars rest)

end

mutual

def pieceExpansions : BracePiece → List (List Char)
  | .plain c => [[c]]
  | .group first others => expansions first ++ othersExpansions others

/-- What a pattern stands for: all ways of taking one expansion of each piece, the leftmost piece
varying slowest. -/
def expansions : List BracePiece → List (List Char)
  | [] => [[]]
  | piece :: rest => (pieceExpansions piece).flatMap fun x => (expansions rest).map (x ++ ·)

/-- What the alternatives of a group stand for, one after another. -/
def othersExpansions : List (List BracePiece) → List (List Char)
  | [] => []
  | alternative :: rest => expansions alternative ++ othersExpansions rest

end

mutual

def IsPiece (inGroup : Bool) : BracePiece → Prop
  | .plain c => c ≠ '\x7b' ∧ c ≠ '\x7d' ∧ (inGroup = true → c ≠ ',')
  | .group first others => IsPattern true first ∧ AreAlternatives others

/-- Holds of patterns in which no character is a brace. Outside of groups a comma may be one; inside
it would end the alternative. -/
def IsPattern (inGroup : Bool) : List BracePiece → Prop
  | [] => True
  | piece :: rest => IsPiece inGroup piece ∧ IsPattern inGroup rest

def AreAlternatives : List (List BracePiece) → Prop
  | [] => True
  | alternative :: rest => IsPattern true alternative ∧ AreAlternatives rest

end

variable {p q first : List BracePiece} {others : List (List BracePiece)}

theorem isPattern_append {inGroup : Bool} :
    IsPattern inGroup (p ++ q) ↔ IsPattern inGroup p ∧ IsPattern inGroup q := by
  induction p with
  | nil => exact (iff_of_eq (true_and _)).symm
  | cons piece p ih => rw [List.cons_append, IsPattern, IsPattern, ih, and_assoc]

theorem isPattern_of_mem (h : AreAlternatives others) {alternative : List BracePiece}
    (hmem : alternative ∈ others) : IsPattern true alternative := by
  induction others with
  | nil => exact absurd hmem List.not_mem_nil
  | cons other others ih =>
    rcases List.mem_cons.1 hmem with rfl | hmem
    · exact h.1
    · exact ih h.2 hmem

/-- A pattern without commas outside of its groups is a pattern. -/
theorem IsPattern.outside (h : IsPattern true p) : IsPattern false p := by
  induction p with
  | nil => trivial
  | cons piece p ih =>
    refine ⟨?_, ih h.2⟩
    cases piece with
    | plain c => exact ⟨h.1.1, h.1.2.1, fun hfalse => absurd hfalse Bool.false_ne_true⟩
    | group first others => exact h.1

theorem patternChars_append (p q : List BracePiece) :
    patternChars (p ++ q) = patternChars p ++ patternChars q := by
  induction p with
  | nil => rfl
  | cons piece p ih => rw [List.cons_append, patternChars, patternChars, ih, List.append_assoc]

theorem patternChars_map_plain (cs : List Char) : patternChars (cs.map plain) = cs := by
  induction cs with
  | nil => rfl
  | cons c cs ih => rw [List.map_cons, patternChars, pieceChars, ih, List.singleton_append]

/-- Patterns side by side stand for what the first stands for, followed by what the second does. -/
theorem expansions_append (p q : List BracePiece) :
    expansions (p ++ q) = (expansions p).flatMap fun x => (expansions q).map (x ++ ·) := by
  induction p with
  | nil => simp [expansions]
  | cons piece p ih =>
    rw [List.cons_append, expansions, expansions, ih, List.flatMap_assoc]
    simp only [List.map_flatMap, List.flatMap_map, List.map_map, Function.comp_def,
      List.append_assoc]

theorem expansions_map_plain (cs : List Char) : expansions (cs.map plain) = [cs] := by
  induction cs with
  | nil => rfl
  | cons c cs ih =>
    rw [List.map_cons, expansions, ih, pieceExpansions]
    rfl

theorem othersExpansions_eq_flatMap (others : List (List BracePiece)) :
    othersExpansions others = others.flatMap expansions := by
  induction others with
  | nil => rfl
  | cons alternative others ih => rw [othersExpansions, ih, List.flatMap_cons]

/-- A group stands for what stands there when its alternatives are put in its place, one after
another. -/
theorem expansions_group (front : List Char) (rest : List BracePiece) :
    expansions (front.map plain ++ .group first others :: rest)
      = (first :: others).flatMap fun alternative =>
          expansions (front.map plain ++ alternative ++ rest) := by
  have hgroup : pieceExpansions (.group first others) = (first :: others).flatMap expansions := by
    rw [pieceExpansions, othersExpansions_eq_flatMap, List.flatMap_cons]
  -- characters in front of a pattern stand in front of all that it stands for
  have hfront : ∀ p, expansions (front.map plain ++ p) = (expansions p).map (front ++ ·) := by
    intro p
    rw [expansions_append, expansions_map_plain, List.flatMap_singleton]
  simp only [List.append_assoc, hfront]
  rw [expansions, hgroup, List.flatMap_assoc, List.map_flatMap]
  simp only [expansions_append]

/-- A pattern is characters alone, or has a first group. -/
theorem exists_first_group (p : List BracePiece) :
    (∃ front : List Char, p = front.map plain)
      ∨ ∃ (front : List Char) (first : List BracePiece) (others : List (List BracePiece))
          (rest : List BracePiece), p = front.map plain ++ .group first others :: rest := by
  induction p with
  | nil => exact .inl ⟨[], rfl⟩
  | cons piece p ih =>
    cases piece with
    | group first others => exact .inr ⟨[], first, others, p, rfl⟩
    | plain c =>
      -- a character joins those in front of the first group
      rcases ih with ⟨front, rfl⟩ | ⟨front, first, others, rest, rfl⟩
      · exact .inl ⟨c :: front, rfl⟩
      · exact .inr ⟨c :: front, first, others, rest, rfl⟩

/-- The characters of a pattern are no braces. -/
theorem ne_of_isPattern_map_plain {inGroup : Bool} {cs : List Char}
    (h : IsPattern inGroup (cs.map plain)) : '\x7b' ∉ cs := by
  induction cs with
  | nil => exact List.not_mem_nil
  | cons c cs ih =>
    rw [List.mem_cons, not_or]
    exact ⟨fun heq => h.1.1 heq.symm, ih h.2⟩

/-! ## The end of a group -/

/-- Characters in front of the first alternative. -/
def BraceGroup.behind (cs : List Char) (g : BraceGroup) : BraceGroup :=
  { g with first := cs ++ g.first }

namespace BraceGroup

theorem behind_append (cs ds : List Char) (g : BraceGroup) :
    (g.behind ds).behind cs = g.behind (cs ++ ds) := by
  rw [behind, behind, behind, List.append_assoc]

theorem map_behind_append (cs ds : List Char) (g : Option BraceGroup) :
    (g.map (behind ds)).map (behind cs) = g.map (behind (cs ++ ds)) := by
  rw [Option.map_map]
  exact congrArg (g.map ·) (funext fun g => behind_append cs ds g)

theorem scan_open (depth : Nat) (cs : List Char) :
    scan depth ('\x7b' :: cs) = (scan (depth + 1) cs).map (behind ['\x7b']) := by
  cases depth <;> rfl

theorem scan_close (depth : Nat) (cs : List Char) :
    scan (depth + 1) ('\x7d' :: cs) = (scan depth cs).map (behind ['\x7d']) := by
  rw [scan, if_neg (by decide), if_pos rfl]
  rfl

theorem scan_close_zero (cs : List Char) : scan 0 ('\x7d' :: cs) = some ⟨[], [], cs⟩ := by
  rw [scan, if_neg (by decide), if_pos rfl]

theorem scan_comma_zero (cs : List Char) : scan 0 (',' :: cs) = (scan 0 cs).map consEmpty := by
  rw [scan, if_neg (by decide), if_neg (by decide), if_pos (by decide)]

/-- A character that is no brace belongs to the alternative, if it is no comma between two. -/
theorem scan_plain {c : Char} (hopen : c ≠ '\x7b') (hclose : c ≠ '\x7d') {depth : Nat}
    (hcomma : depth = 0 → c ≠ ',') (cs : List Char) :
    scan depth (c :: cs) = (scan depth cs).map (behind [c]) := by
  -- the third test of the scan: a comma, and no group open inside this one
  have hbetween : ¬ (decide (c = ',') && depth == 0) = true := by
    rw [Bool.and_eq_true, decide_eq_true_eq, beq_iff_eq]
    exact fun ⟨hc, hdepth⟩ => hcomma hdepth hc
  rw [scan.eq_def]
  simp only [if_neg hopen, if_neg hclose, if_neg hbetween]
  rfl

mutual

theorem scan_pieceChars (piece : BracePiece) {inGroup : Bool} (h : IsPiece inGroup piece)
    {depth : Nat} (hdepth : depth = 0 → inGroup = true) (cs : List Char) :
    scan depth (pieceChars piece ++ cs) = (scan depth cs).map (behind (pieceChars piece)) := by
  cases piece with
  | plain c =>
    obtain ⟨hopen, hclose, hcomma⟩ := h
    exact scan_plain hopen hclose (fun hzero => hcomma (hdepth hzero)) cs
  | group first others =>
    obtain ⟨hfirst, hothers⟩ := h
    rw [pieceChars, List.cons_append, List.append_assoc, scan_open,
      scan_patternChars first hfirst (fun _ => rfl), scan_othersChars others hothers,
      map_behind_append, map_behind_append]
    rfl

/-- What stands inside of a group passes the scan for the end of the group unread. -/
theorem scan_patternChars (p : List BracePiece) {inGroup : Bool} (h : IsPattern inGroup p)
    {depth : Nat} (hdepth : depth = 0 → inGroup = true) (cs : List Char) :
    scan depth (patternChars p ++ cs) = (scan depth cs).map (behind (patternChars p)) := by
  cases p with
  | nil => exact Option.map_id'.symm
  | cons piece p =>
    rw [patternChars, List.append_assoc, scan_pieceChars piece h.1 hdepth,
      scan_patternChars p h.2 hdepth, map_behind_append]

/-- The other alternatives of an inner group and its end. -/
theorem scan_othersChars (others : List (List BracePiece)) (h : AreAlternatives others)
    {depth : Nat} (cs : List Char) :
    scan (depth + 1) (othersChars others ++ cs)
      = (scan depth cs).map (behind (othersChars others)) := by
  cases others with
  | nil => exact scan_close depth cs
  | cons alternative others =>
    -- inside an inner group a comma separates nothing of the outer one
    have hcomma : ∀ ds, scan (depth + 1) (',' :: ds) = (scan (depth + 1) ds).map (behind [',']) :=
      scan_plain (by decide) (by decide) fun hzero => absurd hzero (Nat.succ_ne_zero depth)
    rw [othersChars, List.cons_append, List.append_assoc, hcomma,
      scan_patternChars alternative h.1 (fun _ => rfl), scan_othersChars others h.2,
      map_behind_append, map_behind_append]
    rfl

end

/-- A group is read as its alternatives and what stands behind it. -/
theorem scan_group (hfirst : IsPattern true first) (hothers : AreAlternatives others)
    (back : List Char) :
    scan 0 (patternChars first ++ (othersChars others ++ back))
      = some ⟨patternChars first, others.map patternChars, back⟩ := by
  -- each comma begins an alternative, the closing brace ends the last
  induction others generalizing first with
  | nil =>
    rw [scan_patternChars first hfirst (fun _ => rfl), othersChars, List.singleton_append,
      scan_close_zero, Option.map_some, behind, List.append_nil]
    rfl
  | cons alternative others ih =>
    rw [scan_patternChars first hfirst (fun _ => rfl), othersChars, List.cons_append,
      List.append_assoc, scan_comma_zero, ih hothers.1 hothers.2, Option.map_some,
      Option.map_some, behind, consEmpty, List.append_nil]
    rfl

end BraceGroup

/-! ## Expansion -/

theorem expandChars_of_not_mem {cs : List Char} (h : '\x7b' ∉ cs) : expandChars cs = [cs] := by
  have hdrop := Text.dropWhile_of_not_mem h
  rw [expandChars]
  split
  · rfl
  · next heq => cases hdrop.symm.trans heq

/-- The alternatives of the first group are put in its place, one after another. -/
theorem expandChars_group {front inner : List Char} (h : '\x7b' ∉ front) {g : BraceGroup}
    (hg : BraceGroup.scan 0 inner = some g) :
    expandChars (front ++ '\x7b' :: inner)
      = g.choices.flatMap fun choice => expandChars (front ++ choice ++ g.back) := by
  have htake := Text.takeWhile_of_first h inner
  have hdrop := Text.dropWhile_of_first h inner
  rw [expandChars]
  split
  · next heq => cases hdrop.symm.trans heq
  · next heq =>
    obtain ⟨-, rfl⟩ := List.cons.inj (hdrop.symm.trans heq)
    split
    · next hnone => cases hg.symm.trans hnone
    · next g' hsome =>
      obtain rfl := Option.some.inj (hg.symm.trans hsome)
      rw [htake, List.flatMap_subtype (fun _ _ => rfl), List.unattach_attach]

theorem openBraces_append (cs ds : List Char) :
    openBraces (cs ++ ds) = openBraces cs + openBraces ds := List.count_append

/-- The text of a pattern is expanded as the tree says. -/
theorem expandChars_patternChars (h : IsPattern false p) :
    expandChars (patternChars p) = expansions p := by
  -- each expansion of the first group leaves one opening brace less
  generalize hn : openBraces (patternChars p) = n
  induction n using Nat.strongRecOn generalizing p with
  | _ n ih =>
    rcases exists_first_group p with ⟨front, rfl⟩ | ⟨front, first, others, rest, rfl⟩
    · rw [patternChars_map_plain, expansions_map_plain]
      exact expandChars_of_not_mem (ne_of_isPattern_map_plain h)
    · obtain ⟨hfront, ⟨hfirst, hothers⟩, hrest⟩ := isPattern_append.1 h
      -- what the scan finds is the group of the tree
      have hscan := BraceGroup.scan_group hfirst hothers (patternChars rest)
      have htext : patternChars (front.map plain ++ .group first others :: rest) = front
          ++ '\x7b' :: (patternChars first ++ (othersChars others ++ patternChars rest)) := by
        rw [patternChars_append, patternChars_map_plain, patternChars, pieceChars,
          List.cons_append, List.append_assoc]
      rw [htext, expandChars_group (ne_of_isPattern_map_plain hfront) hscan, expansions_group]
      show (patternChars first :: others.map patternChars).flatMap _ = _
      rw [← List.map_cons, List.flatMap_map]
      refine List.flatMap_congr fun alternative hmem => ?_
      have halternative : IsPattern true alternative := by
        rcases List.mem_cons.1 hmem with rfl | hmem
        · exact hfirst
        · exact isPattern_of_mem hothers hmem
      -- an alternative in the place of its group is a pattern again: outside a comma is allowed
      have hspliced : IsPattern false (front.map plain ++ alternative ++ rest) :=
        isPattern_append.2 ⟨isPattern_append.2 ⟨hfront, halternative.outside⟩, hrest⟩
      have hchars : front ++ patternChars alternative ++ patternChars rest
          = patternChars (front.map plain ++ alternative ++ rest) := by
        rw [patternChars_append, patternChars_append, patternChars_map_plain]
      -- the group's own opening brace is gone, and no other one comes in its place
      have hfewer : openBraces (patternChars alternative) + openBraces (patternChars rest)
          ≤ openBraces (patternChars first ++ (othersChars others ++ patternChars rest)) :=
        openBraces_choice_le hscan (List.mem_map_of_mem hmem)
      have hopen : ∀ cs, openBraces ('\x7b' :: cs) = openBraces cs + 1 :=
        fun cs => List.count_cons_self
      rw [hchars]
      refine ih _ ?_ hspliced rfl
      rw [← hchars, ← hn, htext, openBraces_append, openBraces_append, openBraces_append, hopen]
      omega

/-- The patterns that the text of a pattern stands for are the expansions of its tree, in their
order and as often as they come. -/
theorem braceAlternatives_patternChars (h : IsPattern false p) :
    braceAlternatives (String.ofList (patternChars p)) = (expansions p).map String.ofList := by
  rw [braceAlternatives, String.toList_ofList, expandChars_patternChars h]

/-- A group in a group, an empty alternative, groups side by side, a comma outside of them and a
result that comes twice. -/
def nestedGroups : List BracePiece :=
  [.plain 't', .plain ',',
    .group [.plain 'a'] [[.plain 'b', .group [] [[.plain '1']]], [.group [.plain 'a'] []]],
    .group [] [[.plain 'c']]]

theorem braceAlternatives_nestedGroups :
    IsPattern false nestedGroups
      ∧ braceAlternatives "t,\x7ba,b\x7b,1\x7d,\x7ba\x7d\x7d\x7b,c\x7d"
        = ["t,a", "t,ac", "t,b", "t,bc", "t,b1", "t,b1c", "t,a", "t,ac"] := by
  have hpattern : IsPattern false nestedGroups := by
    simp [nestedGroups, IsPattern, IsPiece, AreAlternatives]
  exact ⟨hpattern, braceAlternatives_patternChars hpattern⟩

end TableScan.Location
