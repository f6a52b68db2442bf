import Mathlib
import TableScan.Projection.Selector
import TableScan.Proofs.Results
import TableScan.Proofs.Schema.Positions

/-!
# Projection text by byte positions

The parser of projections, as a walk of a cursor through the text (`Walk.selectors`). Names, single
characters and white space are read as those of schemas are; in a key the cursor is moved on by one
character after another, white space or not.

Main statement: for every text, both parsers end. Their cursor is never moved back, stands where a
character begins or at the end of the text, so that no slice fails, and an error names the position
where it stands (`Walk.parsers_stay_on_boundaries`).
-/

namespace TableScan

open Text (trimStart)
open Walk (complete ifNext outcome)

/-! ## Scanners in sequence -/

namespace Selector

/-- What is read behind a key. -/
def keysBehind (key : String) (cs : List Char) : Except Stuck (List String × List Char) :=
  ifNext '|' cs (fun r => (outcome (scanKeys r)).map fun p => (key :: p.1, p.2)) fun r =>
    (outcome (Grammar.expect '\x7d' r)).map fun p => ([key], p.2)

/-- The keys of a selector behind its name. -/
def subfieldsBehind (cs : List Char) : Except Stuck (List String × List Char) :=
  ifNext '#' cs
    (fun r => do
      let (_, r) ← outcome (Grammar.expect '\x7b' r)
      outcome (scanKeys r))
    fun r => .ok ([], r)

/-- What is read behind a selector. -/
def selectorsBehind (selector : Selector) (cs : List Char) :
    Except Stuck (List Selector × List Char) :=
  ifNext ',' cs (fun r => (outcome (scanSelectors r)).map fun p => (selector :: p.1, p.2)) fun r =>
    .ok ([selector], r)

variable {cs r : List Char}

/-- Keys in braces take characters, and no keys take white space at most. -/
theorem length_le_of_subfieldsBehind {keys : List String}
    (h : subfieldsBehind cs = .ok (keys, r)) : r.length ≤ cs.length := by
  rcases Walk.ifNext_cases '#' cs _ _ with ⟨inner, hinner, heq⟩ | ⟨-, heq⟩
  · rw [subfieldsBehind, heq] at h
    obtain ⟨⟨_, opened⟩, hopened, hkeys⟩ := Results.bind_eq_ok_iff.1 h
    calc
      r.length ≤ opened.length := Nat.le_of_lt (Walk.length_lt_of_outcome hkeys)
      _ ≤ inner.length := Nat.le_of_lt (Walk.length_lt_of_outcome hopened)
      _ ≤ cs.length := Nat.le_of_lt (Text.length_lt_of_trimStart_cons hinner)
  · rw [subfieldsBehind, heq] at h
    obtain ⟨-, rfl⟩ := Prod.mk.inj (Except.ok.inj h)
    exact Text.length_trimStart_le cs

/-- Keys are read by the first one. -/
theorem outcome_scanKeys (cs : List Char) :
    outcome (scanKeys cs) = outcome (scanKey cs) >>= fun p => keysBehind p.1 p.2 := by
  rw [scanKeys]
  cases scanKey cs with
  | error stuck => rfl
  | ok key =>
    show _ = keysBehind key.value key.rest
    unfold keysBehind
    dsimp only
    split
    · next r hr =>
      rw [Walk.ifNext_of_eq hr]
      cases scanKeys r <;> rfl
    · next hne =>
      rw [Walk.ifNext_of_ne hne, Walk.outcome_expect_trimStart]
      cases Grammar.expect '\x7d' key.rest <;> rfl

/-- A selector is read by its name. -/
theorem outcome_scanSelector (cs : List Char) :
    outcome (scanSelector cs) = outcome (Grammar.scanName cs) >>= fun p =>
      (subfieldsBehind p.2).map fun q => (Selector.mk p.1 q.1, q.2) := by
  rw [scanSelector]
  cases Grammar.scanName cs with
  | error stuck => rfl
  | ok name =>
    show _ = (subfieldsBehind name.rest).map fun q => (Selector.mk name.value q.1, q.2)
    unfold subfieldsBehind
    dsimp only
    split
    · next r hr =>
      rw [Walk.ifNext_of_eq hr]
      cases Grammar.expect '\x7b' r with
      | error stuck => rfl
      | ok opened =>
        show _ = (outcome (scanKeys opened.rest)).map _
        dsimp only
        cases scanKeys opened.rest <;> rfl
    · next hne =>
      rw [Walk.ifNext_of_ne hne]
      rfl

/-- Selectors are read by the name and the keys of the first one. -/
theorem outcome_scanSelectors (cs : List Char) :
    outcome (scanSelectors cs) = outcome (Grammar.scanName cs) >>= fun p =>
      subfieldsBehind p.2 >>= fun q => selectorsBehind ⟨p.1, q.1⟩ q.2 := by
  -- the selector is one step of the scanner, and two of the walk
  have hsteps : outcome (scanSelectors cs)
      = outcome (scanSelector cs) >>= fun p => selectorsBehind p.1 p.2 := by
    rw [scanSelectors]
    cases scanSelector cs with
    | error stuck => rfl
    | ok selector =>
      show _ = selectorsBehind selector.value selector.rest
      unfold selectorsBehind
      dsimp only
      split
      · next r hr =>
        rw [Walk.ifNext_of_eq hr]
        cases scanSelectors r <;> rfl
      · next hne =>
        rw [Walk.ifNext_of_ne hne]
        rfl
  rw [hsteps, outcome_scanSelector, bind_assoc]
  simp only [Results.bind_map]

theorem map_scanAll (hne : trimStart cs ≠ []) :
    (scanAll cs).map (fun selectors => (selectors, ([] : List Char)))
      = outcome (scanSelectors cs) >>= complete := by
  unfold scanAll
  split
  · next h => exact absurd h hne
  · cases scanSelectors cs with
    | error stuck => rfl
    | ok selectors =>
      show _ = complete (selectors.value, selectors.rest)
      unfold complete
      dsimp only
      cases trimStart selectors.rest <;> rfl

end Selector

/-! ## The parser as a walk -/

namespace Walk

/-- The characters of a key behind those that have been read: all up to a reserved one. -/
def keyChars : (calls : Nat) → (read : List Char) → Walk (List Char)
  | 0, _ => lost
  | calls + 1, read => do
    let next ← peekRaw
    match next with
    | none => return read
    | some c =>
      if Selector.isReserved c then return read
      else do
        advance c
        keyChars calls (read ++ [c])

/-- A key, trimmed; one of white space alone is refused. -/
def key (calls : Nat) : Walk String := do
  let raw ← keyChars calls []
  if (Text.trim raw).isEmpty then refuse .expectedMapKey else return String.ofList (Text.trim raw)

/-- One or more keys between bars, after those before them. -/
def keysAfter : (calls : Nat) → (before : List String) → Walk (List String)
  | 0, _ => lost
  | calls + 1, before => do
    let own ← key calls
    let more ← eat '|'
    if more then keysAfter calls (before ++ [own]) else return before ++ [own]

/-- The keys in braces behind a name, if there are any. -/
def subfields (calls : Nat) : Walk (List String) := do
  let hash ← eat '#'
  if hash then do
    expect '\x7b'
    let keys ← keysAfter calls []
    expect '\x7d'
    return keys
  else return []

/-- One or more selectors between commas, after those before them. -/
def selectorsAfter : (calls : Nat) → (before : List Selector) → Walk (List Selector)
  | 0, _ => lost
  | calls + 1, before => do
    let word ← name
    let keys ← subfields calls
    let more ← eat ','
    if more then selectorsAfter calls (before ++ [⟨word, keys⟩])
    else return before ++ [⟨word, keys⟩]

/-- The selectors of a whole text. -/
def selectors (calls : Nat) : Walk (List Selector) := do
  let ended ← atEnd
  if ended then return [] else whole (selectorsAfter calls [])

/-! ## The walk follows the scanners -/

variable {cs : List Char}

/-- The walk takes the characters that the scanner takes at once. -/
theorem follows_keyChars {calls : Nat} (h : cs.length < calls) (read : List Char) :
    Follows (keyChars calls read) cs (.ok (read ++ cs.takeWhile (!Selector.isReserved ·),
      cs.dropWhile (!Selector.isReserved ·))) := by
  induction cs generalizing calls read with
  | nil =>
    obtain ⟨calls, rfl⟩ := Nat.exists_eq_succ_of_ne_zero (Nat.ne_zero_of_lt h)
    rw [keyChars, List.takeWhile_nil, List.append_nil]
    exact (follows_peekRaw []).bind_ok (follows_pure read [])
  | cons c cs ih =>
    obtain ⟨calls, rfl⟩ := Nat.exists_eq_succ_of_ne_zero (Nat.ne_zero_of_lt h)
    rw [keyChars]
    refine (follows_peekRaw (c :: cs)).bind_ok ?_
    dsimp only [List.head?_cons]
    rw [List.takeWhile_cons, List.dropWhile_cons]
    cases hc : Selector.isReserved c with
    | true =>
      rw [if_pos rfl, if_neg (by decide), if_neg (by decide), List.append_nil]
      exact follows_pure read (c :: cs)
    | false =>
      -- the character goes behind those that were read
      have hmore := ih (Nat.lt_of_succ_lt_succ h) (read ++ [c])
      rw [List.append_assoc, List.singleton_append] at hmore
      rw [if_neg (by decide), if_pos (by decide), if_pos (by decide)]
      exact (follows_advance c cs).bind_ok hmore

/-- So keys are read, or refused, at one position. -/
theorem follows_key {calls : Nat} (h : cs.length < calls) :
    Follows (key calls) cs (outcome (Selector.scanKey cs)) := by
  refine (follows_keyChars h []).bind_ok ?_
  unfold Selector.scanKey
  rw [List.nil_append]
  dsimp only
  split
  · exact follows_refuse .expectedMapKey _
  · exact follows_pure _ _

/-- Nothing is put in front of what was found. -/
theorem map_nil_append {α : Type} (x : Except Stuck (List α × List Char)) :
    x.map (fun p => ([] ++ p.1, p.2)) = x := by
  cases x <;> rfl

/-- The keys and the closing brace behind them. -/
theorem follows_keysAfter {calls : Nat} (h : cs.length + 1 < calls) (before : List String) :
    Follows (keysAfter calls before >>= fun keys => expect '\x7d' >>= fun _ => pure keys) cs
      ((outcome (Selector.scanKeys cs)).map fun p => (before ++ p.1, p.2)) := by
  induction calls generalizing cs before with
  | zero => exact absurd h (Nat.not_lt_zero _)
  | succ calls ih =>
    rw [keysAfter, Selector.outcome_scanKeys, Results.map_bind, andThen_assoc]
    refine (follows_key (by omega)).bind fun own r hown => ?_
    have hlt := length_lt_of_outcome hown
    unfold Selector.keysBehind
    rw [andThen_assoc, map_ifNext]
    refine follows_eat_bind (fun inner hinner => ?_) ?_
    · -- what is collected in front is what the scanner puts in front on its way back
      have hless := Text.length_lt_of_trimStart_cons hinner
      have hmore := @ih inner (by omega) (before ++ [own])
      simp only [List.append_assoc, List.singleton_append] at hmore
      rw [Results.map_map]
      exact hmore
    · rw [Results.map_map]
      exact (follows_expect '\x7d' _).map fun _ => before ++ [own]

/-- The keys in braces are followed. -/
theorem follows_subfields {calls : Nat} (h : cs.length < calls) :
    Follows (subfields calls) cs (Selector.subfieldsBehind cs) := by
  refine follows_eat_bind (fun r hr => ?_) (follows_pure [] _)
  have hless := Text.length_lt_of_trimStart_cons hr
  refine (follows_expect '\x7b' _).bind fun _ inner hinner => ?_
  have hlt := length_lt_of_outcome hinner
  -- nothing was collected before the first key
  have hkeys := @follows_keysAfter inner calls (by omega) []
  rwa [map_nil_append] at hkeys

/-- The walk of selectors follows the scanner, behind selectors that were read before. -/
theorem follows_selectorsAfter {calls : Nat} (h : cs.length < calls) {ds : List Char}
    (hds : trimStart ds = trimStart cs) (before : List Selector) :
    Follows (selectorsAfter calls before) ds
      ((outcome (Selector.scanSelectors cs)).map fun p => (before ++ p.1, p.2)) := by
  induction calls generalizing cs ds before with
  | zero => exact absurd h (Nat.not_lt_zero _)
  | succ calls ih =>
    rw [selectorsAfter, Selector.outcome_scanSelectors, Results.map_bind]
    refine (follows_name hds).bind fun word r hword => ?_
    have hlt := length_lt_of_outcome hword
    rw [Results.map_bind]
    refine (follows_subfields (by omega)).bind fun keys r' hkeys => ?_
    -- a name takes a character at least, so every round starts with less
    have hle := Selector.length_le_of_subfieldsBehind hkeys
    unfold Selector.selectorsBehind
    rw [map_ifNext]
    refine follows_eat_bind (fun inner hinner => ?_) (follows_pure _ _)
    have hless := Text.length_lt_of_trimStart_cons hinner
    have hmore := @ih inner (by omega) inner rfl (before ++ [⟨word, keys⟩])
    simp only [List.append_assoc, List.singleton_append] at hmore
    rw [Results.map_map]
    exact hmore

/-- The walk of the parser follows the scanner of whole texts. -/
theorem follows_selectors {calls : Nat} (h : cs.length < calls) :
    Follows (selectors calls) cs ((Selector.scanAll cs).map fun found => (found, [])) := by
  refine (follows_atEnd cs).bind_ok ?_
  by_cases hend : trimStart cs = []
  · have hnone : Selector.scanAll cs = .ok [] := by
      unfold Selector.scanAll
      rw [hend]
    rw [hnone, hend]
    exact follows_pure [] []
  · have hselectors := follows_selectorsAfter h (Text.trimStart_trimStart cs) []
    rw [map_nil_append] at hselectors
    rw [List.isEmpty_eq_false_iff.2 hend, Selector.map_scanAll hend]
    exact follows_whole hselectors

/-- Both parsers come to an end with every text, their calls nested no deeper than the text is long
and one more. -/
theorem parsers_stay_on_boundaries (text : String) (calls : Nat) (h : text.length + 1 < calls) :
    (∃ c, StaysOnBoundaries (wholeSchema calls) text (Schema.parse text) c)
      ∧ ∃ c, StaysOnBoundaries (selectors calls) text (Selector.parseAll text) c := by
  rw [← String.length_toList] at h
  constructor
  -- parsing is the scanner of whole texts, with positions for its rests
  · have hparse : resultOf text ((Grammar.scanSchema text.toList).map fun columns =>
        ((⟨columns⟩ : Schema), [])) = Schema.parse text := by
      unfold Schema.parse
      cases Grammar.scanSchema text.toList <;> rfl
    rw [← hparse]
    exact (follows_wholeSchema h).staysOnBoundaries
  · have hparse : resultOf text ((Selector.scanAll text.toList).map fun found => (found, []))
        = Selector.parseAll text := by
      unfold Selector.parseAll
      cases Selector.scanAll text.toList <;> rfl
    rw [← hparse]
    exact (follows_selectors (Nat.lt_of_succ_lt h)).staysOnBoundaries

/-- A key of two bytes and a blank of three in front of the end, where the closing brace is
missed. -/
theorem parsers_stay_on_boundaries_wide :
    "a#\x7bé\u3000".length + 1 < 7
      ∧ (∃ c, StaysOnBoundaries (wholeSchema 7) "a#\x7bé\u3000"
        (.error (.parse (.text .trailingInput "a#\x7bé\u3000" 1))) c)
      ∧ ∃ c, StaysOnBoundaries (selectors 7) "a#\x7bé\u3000"
        (.error (.parse (.text (.expectedChar '\x7d') "a#\x7bé\u3000" 8))) c := by
  have hlength : "a#\x7bé\u3000".length + 1 < 7 := by decide
  have hschema : Schema.parse "a#\x7bé\u3000"
      = .error (.parse (.text .trailingInput "a#\x7bé\u3000" 1)) := by cbv
  have hselectors : Selector.parseAll "a#\x7bé\u3000"
      = .error (.parse (.text (.expectedChar '\x7d') "a#\x7bé\u3000" 8)) := by cbv
  rw [← hschema, ← hselectors]
  exact ⟨hlength, parsers_stay_on_boundaries _ 7 hlength⟩

end Walk

end TableScan
