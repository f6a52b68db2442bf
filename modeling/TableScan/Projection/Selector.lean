import TableScan.Schema.Grammar

/-!
# Projection text

A projection names columns in the order in which they are wanted, and may narrow a map column to
some of its keys: `id , tags#{x|y}`. The text has no escapes, so a key can only be written if it
is not empty, holds no character of the grammar and has no white space at its ends
(`isRenderableKey`).

* `Selector.renderAll` writes selectors,
* `Selector.parseAll` reads them; white space is free between tokens, and keys are trimmed.
-/

namespace TableScan

open Text (Scan trimStart)

/-- A column that is wanted, with the map keys that are wanted of it; no keys stand for the whole
column. -/
structure Selector where
  name : String
  subfields : List String
  deriving DecidableEq, Repr

namespace Selector

def column (name : String) : Selector := ⟨name, []⟩

/-- Holds of the characters that end a key in projection text. -/
def isReserved (c : Char) : Bool :=
  c == '|' || c == '\x7d' || c == ',' || c == '\x7b' || c == '#'

/-- Whether a map key reads back from projection text as it was written. -/
def isRenderableKey (key : String) : Bool :=
  let cs := key.toList
  !cs.isEmpty && Text.trim cs == cs && !cs.any isReserved

/-! ## Writing -/

def chars (s : Selector) : List Char :=
  s.name.toList ++
    if s.subfields.isEmpty then []
    else ['#', '\x7b'] ++ ['|'].intercalate (s.subfields.map String.toList) ++ ['\x7d']

/-- The written form of selectors: a comma with a space on either side between two. -/
def renderAll (selectors : List Selector) : String :=
  String.ofList ([' ', ',', ' '].intercalate (selectors.map chars))

/-! ## Reading -/

/-- A map key: everything up to a reserved character, trimmed. -/
def scanKey (cs : List Char) : Except Stuck (Scan cs String) :=
  let raw := cs.takeWhile (!isReserved ·)
  let rest := cs.dropWhile (!isReserved ·)
  if h : (Text.trim raw).isEmpty then .error ⟨.expectedMapKey, rest⟩
  else .ok ⟨String.ofList (Text.trim raw), rest, by
    have hl : raw.length + rest.length = cs.length := by
      rw [← List.length_append, List.takeWhile_append_dropWhile]
    have hr : raw ≠ [] := by
      intro e
      simp [e, Text.trim, Text.trimEnd, Text.trimStart] at h
    have := List.length_pos_iff.2 hr
    omega⟩

/-- One or more keys between bars, and the closing brace. -/
def scanKeys (cs : List Char) : Except Stuck (Scan cs (List String)) :=
  match scanKey cs with
  | .error e => .error e
  | .ok key =>
    match h : trimStart key.rest with
    | '|' :: r =>
      match scanKeys r with
      | .error e => .error e
      | .ok keys =>
        .ok ((keys.map (key.value :: ·)).lift (Nat.le_of_lt (key.lt_of_trimStart_cons h)))
    | _ =>
      match Grammar.expect '\x7d' key.rest with
      | .error e => .error e
      | .ok close => .ok ⟨[key.value], close.rest, Nat.lt_trans close.lt key.lt⟩
termination_by cs.length
decreasing_by exact key.lt_of_trimStart_cons h

/-- One selector. White space behind a bare name is taken. -/
def scanSelector (cs : List Char) : Except Stuck (Scan cs Selector) :=
  match Grammar.scanName cs with
  | .error e => .error e
  | .ok name =>
    match h : trimStart name.rest with
    | '#' :: r =>
      match Grammar.expect '\x7b' r with
      | .error e => .error e
      | .ok opened =>
        match scanKeys opened.rest with
        | .error e => .error e
        | .ok keys =>
          .ok ⟨⟨name.value, keys.value⟩, keys.rest,
            Nat.lt_trans keys.lt (Nat.lt_trans opened.lt (name.lt_of_trimStart_cons h))⟩
    | r => .ok ⟨column name.value, r, name.lt_of_trimStart h⟩

def scanSelectors (cs : List Char) : Except Stuck (Scan cs (List Selector)) :=
  match scanSelector cs with
  | .error e => .error e
  | .ok selector =>
    match h : trimStart selector.rest with
    | ',' :: r =>
      match scanSelectors r with
      | .error e => .error e
      | .ok more =>
        .ok ((more.map (selector.value :: ·)).lift (Nat.le_of_lt (selector.lt_of_trimStart_cons h)))
    | r => .ok ⟨[selector.value], r, selector.lt_of_trimStart h⟩
termination_by cs.length
decreasing_by exact selector.lt_of_trimStart_cons h

/-- The selectors of a whole text; white space alone holds none. -/
def scanAll (cs : List Char) : Except Stuck (List Selector) :=
  match trimStart cs with
  | [] => .ok []
  | _ =>
    match scanSelectors cs with
    | .error e => .error e
    | .ok selectors =>
      match trimStart selectors.rest with
      | [] => .ok selectors.value
      | r => .error ⟨.trailingInput, r⟩

def parseAll (text : String) : LoadResult (List Selector) :=
  match scanAll text.toList with
  | .ok selectors => .ok selectors
  | .error stuck => .error (stuck.error text.toList)

end Selector

end TableScan
