import TableScan.Proofs.Text.Slices
import TableScan.Proofs.Text.Trimming
import TableScan.Schema.Grammar

/-!
# Walks through a text by byte positions

The grammars are read from lists of characters. They may as well be read by a cursor that stands at
a byte position of the text and is moved on by numbers of bytes: what trimming takes away, the end
of a match, the size of a character. Then nothing but arithmetic keeps the cursor from standing
inside of a character, where a slice of the text fails (`Walk.rest`), or behind the end.

`Walk.Follows` is the relation between the two ways of reading: in front of the same characters both
give the same, and the cursor stops in front of the rest at which the scanner of characters stops.
Wherever it stood in between is on record (`TextCursor.passed`), and `TextCursor.StandsBefore` says
of all these places that they never descend and that a character begins or the text ends at each.

Main statements: walks one after another follow scanners one after another (`Walk.Follows.bind`),
the small walks of which parsers are made follow the scanners for the same (`Walk.follows_eat_bind`,
`Walk.follows_expect`, `Walk.follows_name`), and a walk that follows a scanner stays on boundaries
(`Walk.Follows.staysOnBoundaries`).
-/

namespace TableScan

open Text (IsBoundary Scan slice? sliceFrom? trimStart utf8Length)

/-! ## Cursors -/

/-- A position in a text, in bytes, and the positions that the cursor was moved on from, the last
one first. -/
structure TextCursor where
  input : String
  position : Nat
  passed : List Nat
  deriving DecidableEq, Repr

namespace TextCursor

/-- The cursor in front of a whole text. It has been moved on from nowhere. -/
def atStart (input : String) : TextCursor := ⟨input, 0, []⟩

/-- The cursor moved on by a number of bytes. Nothing is checked here: whether a character begins at
the new position depends on the number alone. -/
def moveBy (n : Nat) (c : TextCursor) : TextCursor :=
  { c with position := c.position + n, passed := c.position :: c.passed }

/-- The cursor stands in front of the last characters `cs` of its text. It has never been moved
back, and a character begins or the text ends wherever it stood. -/
structure StandsBefore (c : TextCursor) (cs : List Char) : Prop where
  /-- The bytes in front of the cursor are those of the characters that are not among `cs`. -/
  splits : ∃ front, c.input = String.ofList (front ++ cs) ∧ c.position = utf8Length front
  descending : (c.position :: c.passed).Pairwise (· ≥ ·)
  onBoundaries : ∀ p ∈ c.position :: c.passed, IsBoundary c.input p

/-- In front of a text all of its characters are still to come. -/
theorem standsBefore_atStart (input : String) : (atStart input).StandsBefore input.toList where
  splits := ⟨[], String.ofList_toList.symm, rfl⟩
  descending := List.pairwise_singleton _ _
  onBoundaries p hp := by
    obtain rfl := List.mem_singleton.1 hp
    exact Text.isBoundary_iff.2 ⟨"", input, String.empty_append.symm, rfl⟩

/-- A cursor is moved on by the bytes of the characters that it leaves behind. -/
theorem StandsBefore.moveBy {c : TextCursor} {front cs : List Char}
    (h : c.StandsBefore (front ++ cs)) : (c.moveBy (utf8Length front)).StandsBefore cs := by
  obtain ⟨⟨before, hinput, hposition⟩, hdescending, hboundaries⟩ := h
  have hsplit : c.input = String.ofList ((before ++ front) ++ cs) := by
    rw [hinput, List.append_assoc]
  have hlength : c.position + utf8Length front = utf8Length (before ++ front) := by
    rw [Text.utf8Length_append, hposition]
  -- the new position is not below the last one, and so not below any other
  refine ⟨⟨before ++ front, hsplit, hlength⟩, List.pairwise_cons.2 ⟨fun p hp => ?_, hdescending⟩,
    fun p hp => ?_⟩
  · rcases List.mem_cons.1 hp with rfl | hp
    · exact Nat.le_add_right _ _
    · exact Nat.le_trans ((List.pairwise_cons.1 hdescending).1 p hp) (Nat.le_add_right _ _)
  · rcases List.mem_cons.1 hp with rfl | hp
    · refine Text.isBoundary_iff.2 ⟨String.ofList (before ++ front), String.ofList cs, ?_, ?_⟩
      · exact hsplit.trans String.ofList_append
      · exact hlength.trans (Text.utf8Length_eq _)
    · exact hboundaries p hp

/-- The slice behind the cursor does not fail. -/
theorem StandsBefore.sliceFrom? {c : TextCursor} {cs : List Char} (h : c.StandsBefore cs) :
    sliceFrom? c.input c.position = some (String.ofList cs) := by
  obtain ⟨front, hinput, hposition⟩ := h.splits
  rw [hinput, hposition]
  exact Text.sliceFrom?_ofList front cs

/-- The position is told by what is still to come, in bytes. Errors of scanners tell it so. -/
theorem StandsBefore.position_eq {c : TextCursor} {cs : List Char} (h : c.StandsBefore cs) :
    c.position = utf8Length c.input.toList - utf8Length cs := by
  obtain ⟨front, hinput, hposition⟩ := h.splits
  rw [hinput, String.toList_ofList, Text.utf8Length_append, hposition, Nat.add_sub_cancel]

/-- The cursor is at the end of its bytes just when no character is left. -/
theorem StandsBefore.atEnd_iff {c : TextCursor} {cs : List Char} (h : c.StandsBefore cs) :
    c.input.utf8ByteSize ≤ c.position ↔ cs = [] := by
  obtain ⟨front, hinput, hposition⟩ := h.splits
  rw [hinput, ← Text.utf8Length_eq, Text.utf8Length_append, hposition,
    ← Text.utf8Length_eq_zero_iff]
  omega

end TextCursor

/-! ## Walks -/

/-- What a cursor does to read something, and whether it answers or fails. Nothing comes of a walk
that slices the text where no character begins, or whose calls are nested deeper than they may. -/
def Walk (α : Type) : Type := TextCursor → Option (LoadResult α × TextCursor)

namespace Walk

variable {α β : Type}

/-- What comes of a walk from a cursor on. -/
def run (w : Walk α) (c : TextCursor) : Option (LoadResult α × TextCursor) := w c

/-- Answers, and stays where it is. -/
def done (a : α) : Walk α := fun c => some (.ok a, c)

/-- Goes on with the answer of a walk; an error ends it. -/
def andThen (w : Walk α) (next : α → Walk β) : Walk β := fun c =>
  match w c with
  | none => none
  | some (.error e, c') => some (.error e, c')
  | some (.ok a, c') => next a c'

instance : Monad Walk where
  pure := done
  bind := andThen

/-- Walks in sequence may be taken together at either end. -/
theorem andThen_assoc {γ : Type} (w : Walk α) (f : α → Walk β) (g : β → Walk γ) :
    w >>= f >>= g = w >>= fun a => f a >>= g := by
  funext c
  simp only [bind, andThen]
  cases w c with
  | none => rfl
  | some found =>
    obtain ⟨result, c'⟩ := found
    cases result <;> rfl

/-- Nothing comes of it. -/
def lost : Walk α := fun _ => none

/-- The cursor itself. -/
def cursor : Walk TextCursor := fun c => some (.ok c, c)

/-- A slice of the text, or nothing at all where the slice fails. -/
def ofSlice (slice : Option String) : Walk String := fun c => slice.map (.ok ·, c)

/-- Moves the cursor on by a number of bytes, whatever stands there. -/
def moveBy (n : Nat) : Walk Unit := fun c => some (.ok (), c.moveBy n)

/-- Fails at the position of the cursor. -/
def refuse (fault : TextFault) : Walk α := fun c =>
  some (.error (.parse (.text fault c.input c.position)), c)

/-- The text behind the cursor. -/
def rest : Walk String := do
  let c ← cursor
  ofSlice (sliceFrom? c.input c.position)

/-- White space is as long as what trimming takes away. -/
def skipBlanks : Walk Unit := do
  let s ← rest
  moveBy (s.utf8ByteSize - utf8Length (trimStart s.toList))

/-- Whether nothing is left behind white space. -/
def atEnd : Walk Bool := do
  skipBlanks
  let c ← cursor
  return c.input.utf8ByteSize ≤ c.position

/-- The next character, white space or not. -/
def peekRaw : Walk (Option Char) := do
  let s ← rest
  return s.toList.head?

/-- The next character behind white space. -/
def peek : Walk (Option Char) := do
  skipBlanks
  peekRaw

/-- Moves behind a character that was seen. -/
def advance (c : Char) : Walk Unit := moveBy c.utf8Size

/-- Takes a character if it is the next one behind white space. -/
def eat (c : Char) : Walk Bool := do
  let next ← peek
  if next = some c then do
    advance c
    return true
  else return false

/-- Takes a character that has to be the next one behind white space. -/
def expect (c : Char) : Walk Unit := do
  let eaten ← eat c
  if eaten then return () else refuse (.expectedChar c)

/-- The length of the name at the front of a text. -/
def matchEnd? (s : String) : Option Nat :=
  match s.toList with
  | [] => none
  | c :: r =>
    if Grammar.isNameStart c then some (utf8Length (c :: r.takeWhile Grammar.isNamePart)) else none

/-- A name, behind white space: as much of the text as matches. -/
def name : Walk String := do
  skipBlanks
  let s ← rest
  match matchEnd? s with
  | some n => do
    moveBy n
    ofSlice (slice? s 0 n)
  | none => refuse .expectedName

/-- A walk behind which nothing but white space is left. -/
def whole (w : Walk α) : Walk α := do
  let a ← w
  let ended ← atEnd
  if ended then return a else refuse .trailingInput

/-! ## Scanners in sequence -/

/-- What a scanner gave, without the proof that the rest is shorter. -/
def outcome {cs : List Char} (x : Except Stuck (Scan cs α)) : Except Stuck (α × List Char) :=
  x.map fun scan => (scan.value, scan.rest)

/-- What follows on a character behind white space, and on everything else there. -/
def ifNext (c : Char) (cs : List Char) (yes no : List Char → α) : α :=
  match trimStart cs with
  | [] => no []
  | d :: r => if d = c then yes r else no (d :: r)

/-- What a scanner gave, if nothing but white space is left behind it. -/
def complete (p : α × List Char) : Except Stuck (α × List Char) :=
  match trimStart p.2 with
  | [] => .ok (p.1, [])
  | r => .error ⟨.trailingInput, r⟩

/-- A scanner that gave something has taken some character. -/
theorem length_lt_of_outcome {cs behind : List Char} {scan : Except Stuck (Scan cs α)} {a : α}
    (h : outcome scan = .ok (a, behind)) : behind.length < cs.length := by
  cases scan with
  | error stuck => cases h
  | ok scan =>
    obtain ⟨-, rfl⟩ := Prod.mk.inj (Except.ok.inj h)
    exact scan.lt

/-- The character is there. -/
theorem ifNext_of_eq {c : Char} {cs r : List Char} {yes no : List Char → α}
    (h : trimStart cs = c :: r) : ifNext c cs yes no = yes r := by
  unfold ifNext
  rw [h]
  exact if_pos rfl

/-- The character is not there; what is, the end included, is given to the other branch. -/
theorem ifNext_of_ne {c : Char} {cs : List Char} {yes no : List Char → α}
    (h : ∀ r, trimStart cs ≠ c :: r) : ifNext c cs yes no = no (trimStart cs) := by
  unfold ifNext
  cases hcs : trimStart cs with
  | nil => rfl
  | cons d r =>
    have hne : ¬ d = c := by
      rintro rfl
      exact h r hcs
    exact if_neg hne

/-- Either the character is there, or what is there does not begin with it. -/
theorem ifNext_cases (c : Char) (cs : List Char) (yes no : List Char → α) :
    (∃ r, trimStart cs = c :: r ∧ ifNext c cs yes no = yes r)
      ∨ ((∀ r, trimStart cs ≠ c :: r) ∧ ifNext c cs yes no = no (trimStart cs)) := by
  by_cases hc : ∃ r, trimStart cs = c :: r
  · obtain ⟨r, hr⟩ := hc
    exact .inl ⟨r, hr, ifNext_of_eq hr⟩
  · exact .inr ⟨not_exists.1 hc, ifNext_of_ne (not_exists.1 hc)⟩

/-- A change of what both branches give is one of what the choice gives. -/
theorem map_ifNext (g : α → β) (c : Char) (cs : List Char)
    (yes no : List Char → Except Stuck α) :
    (ifNext c cs yes no).map g = ifNext c cs (fun r => (yes r).map g) fun r => (no r).map g := by
  unfold ifNext
  split
  · rfl
  · exact apply_ite (Except.map g) _ _ _

/-- Scanning for a character is such a choice, with an error in the branch without it. -/
theorem outcome_expect (c : Char) (cs : List Char) :
    outcome (Grammar.expect c cs)
      = ifNext c cs (fun r => .ok ((), r)) fun r => .error ⟨.expectedChar c, r⟩ := by
  unfold Grammar.expect ifNext
  split
  · next h =>
    simp only [h]
    rfl
  · next d r h =>
    simp only [h]
    split <;> rfl

/-- Whether white space has been skipped already makes no difference to a character. -/
theorem outcome_expect_trimStart (c : Char) (cs : List Char) :
    outcome (Grammar.expect c (trimStart cs)) = outcome (Grammar.expect c cs) := by
  rw [outcome_expect, outcome_expect, ifNext, ifNext, Text.trimStart_trimStart]

/-! ## Walks that follow scanners -/

/-- Where a scanner stopped. -/
def restOf : Except Stuck (α × List Char) → List Char
  | .ok (_, rest) => rest
  | .error stuck => stuck.rest

/-- What a scanner of the characters of a text gave. -/
def resultOf (input : String) : Except Stuck (α × List Char) → LoadResult α
  | .ok (a, _) => .ok a
  | .error stuck => .error (stuck.error input.toList)

/-- `Follows w cs x`: in front of the characters `cs` a walk gives what a scanner of them gave, and
the cursor stops where the scanner stopped. -/
def Follows (w : Walk α) (cs : List Char) (x : Except Stuck (α × List Char)) : Prop :=
  ∀ c : TextCursor, c.StandsBefore cs →
    ∃ c', w.run c = some (resultOf c.input x, c') ∧ c'.input = c.input ∧ c'.StandsBefore (restOf x)

variable {w : Walk α} {next : α → Walk β} {a : α} {cs behind : List Char}
  {x : Except Stuck (β × List Char)} {stuck : Stuck}

/-- Behind a walk that answers the next one goes on, in front of the rest. -/
theorem Follows.bind_ok (hw : Follows w cs (.ok (a, behind))) (hnext : Follows (next a) behind x) :
    Follows (w >>= next) cs x := by
  intro c hc
  obtain ⟨c', hrun, hinput, hstands⟩ := hw c hc
  obtain ⟨c'', hrun', hinput', hstands'⟩ := hnext c' hstands
  -- the second walk starts where the first one stopped, and so does the second scanner
  have h : w c = some (.ok a, c') := hrun
  refine ⟨c'', ?_, hinput'.trans hinput, hstands'⟩
  simp only [run, bind, andThen, h]
  rw [← hinput]
  exact hrun'

/-- A walk that fails ends the sequence where its scanner is stuck. -/
theorem Follows.bind_error (hw : Follows w cs (.error stuck)) :
    Follows (w >>= next) cs (.error stuck) := by
  intro c hc
  obtain ⟨c', hrun, hinput, hstands⟩ := hw c hc
  have h : w c = some (.error (stuck.error c.input.toList), c') := hrun
  refine ⟨c', ?_, hinput, hstands⟩
  simp only [run, bind, andThen, h]
  rfl

/-- Walks one after another follow scanners one after another. -/
theorem Follows.bind {y : Except Stuck (α × List Char)}
    {f : α × List Char → Except Stuck (β × List Char)} (hw : Follows w cs y)
    (hnext : ∀ a behind, y = .ok (a, behind) → Follows (next a) behind (f (a, behind))) :
    Follows (w >>= next) cs (y >>= f) := by
  cases y with
  | error stuck => exact hw.bind_error
  | ok p => exact hw.bind_ok (hnext p.1 p.2 rfl)

/-- Answering takes no characters. -/
theorem follows_pure (a : α) (cs : List Char) : Follows (pure a) cs (.ok (a, cs)) :=
  fun c hc => ⟨c, rfl, rfl, hc⟩

/-- A walk whose answer is changed follows the scanner whose answer is changed. -/
theorem Follows.map {y : Except Stuck (α × List Char)} (hw : Follows w cs y) (g : α → β) :
    Follows (w >>= fun a => pure (g a)) cs (y.map fun p => (g p.1, p.2)) := by
  cases y with
  | error stuck => exact hw.bind_error
  | ok p => exact hw.bind_ok (follows_pure (g p.1) p.2)

/-- A walk fails where the scanner is stuck, at the position of the rest. -/
theorem follows_refuse (fault : TextFault) (cs : List Char) :
    Follows (refuse fault : Walk α) cs (.error ⟨fault, cs⟩) := by
  intro c hc
  refine ⟨c, ?_, rfl, hc⟩
  simp only [run, refuse, resultOf, Stuck.error, String.ofList_toList, hc.position_eq]

/-- A walk by the bytes of some characters leaves these behind. -/
theorem follows_moveBy {front : List Char} {n : Nat} (hcs : cs = front ++ behind)
    (hn : n = utf8Length front) : Follows (moveBy n) cs (.ok ((), behind)) := by
  subst hcs hn
  exact fun c hc => ⟨c.moveBy (utf8Length front), rfl, rfl, hc.moveBy⟩

/-- A slice that does not fail is an answer. -/
theorem follows_ofSlice {slice : Option String} {s : String} (h : slice = some s)
    (cs : List Char) : Follows (ofSlice slice) cs (.ok (s, cs)) := by
  subst h
  exact fun c hc => ⟨c, rfl, rfl, hc⟩

/-- No slice from the cursor on fails. -/
theorem follows_rest (cs : List Char) : Follows rest cs (.ok (String.ofList cs, cs)) :=
  fun c hc => follows_ofSlice hc.sliceFrom? cs c hc

/-- White space is skipped by as many bytes as trimming takes away. -/
theorem follows_skipBlanks (cs : List Char) : Follows skipBlanks cs (.ok ((), trimStart cs)) := by
  obtain ⟨blanks, -, hcs⟩ := Text.exists_trimStart cs
  -- the bytes of the whole are those of the white space and those of what is left
  have hsize : utf8Length cs = utf8Length blanks + utf8Length (trimStart cs) := by
    rw [← Text.utf8Length_append, ← hcs]
  refine (follows_rest cs).bind_ok (follows_moveBy hcs ?_)
  rw [String.toList_ofList, ← Text.utf8Length_eq, hsize, Nat.add_sub_cancel]

/-- The end is reached just when trimming leaves nothing. -/
theorem follows_atEnd (cs : List Char) :
    Follows atEnd cs (.ok ((trimStart cs).isEmpty, trimStart cs)) := by
  refine (follows_skipBlanks cs).bind_ok fun c hc => ⟨c, ?_, rfl, hc⟩
  have hend : (trimStart cs).isEmpty = decide (c.input.utf8ByteSize ≤ c.position) := by
    rw [Bool.eq_iff_iff, List.isEmpty_iff, decide_eq_true_iff, hc.atEnd_iff]
  rw [hend]
  rfl

/-- A walk through a whole text fails with the position of the first character that is left. -/
theorem follows_whole {y : Except Stuck (α × List Char)} (hw : Follows w cs y) :
    Follows (whole w) cs (y >>= complete) := by
  refine hw.bind fun a r _ => (follows_atEnd r).bind_ok ?_
  unfold complete
  dsimp only
  cases trimStart r with
  | nil => exact follows_pure a []
  | cons c r => exact follows_refuse .trailingInput (c :: r)

/-- The next character is the first of those in front of which the cursor stands. -/
theorem follows_peekRaw (cs : List Char) : Follows peekRaw cs (.ok (cs.head?, cs)) := by
  refine (follows_rest cs).bind_ok ?_
  rw [String.toList_ofList]
  exact follows_pure _ _

/-- The next character behind white space is the first one that trimming leaves. -/
theorem follows_peek (cs : List Char) :
    Follows peek cs (.ok ((trimStart cs).head?, trimStart cs)) :=
  (follows_skipBlanks cs).bind_ok (follows_peekRaw _)

/-- The size of a character is the way behind it. -/
theorem follows_advance (c : Char) (cs : List Char) :
    Follows (advance c) (c :: cs) (.ok ((), cs)) := by
  refine follows_moveBy (List.singleton_append).symm ?_
  rw [Text.utf8Length_cons, Text.utf8Length_nil, Nat.add_zero]

/-- Characters that do not begin with `c` have another first one, if any. -/
theorem head?_ne_some {c : Char} (h : ∀ r, cs ≠ c :: r) : ¬ cs.head? = some c := by
  intro heq
  obtain ⟨r, hr⟩ := List.head?_eq_some_iff.1 heq
  exact h r hr

/-- A character that is there is taken. -/
theorem follows_eat {c : Char} {r : List Char} (h : trimStart cs = c :: r) :
    Follows (eat c) cs (.ok (true, r)) := by
  refine (follows_peek cs).bind_ok ?_
  rw [h, List.head?_cons, if_pos rfl]
  exact (follows_advance c r).bind_ok (follows_pure true r)

/-- Where the character is not there, white space is skipped and nothing else. -/
theorem follows_eat_of_ne {c : Char} (h : ∀ r, trimStart cs ≠ c :: r) :
    Follows (eat c) cs (.ok (false, trimStart cs)) := by
  refine (follows_peek cs).bind_ok ?_
  rw [if_neg (head?_ne_some h)]
  exact follows_pure false _

/-- A walk that goes on as the next character says. -/
theorem follows_eat_bind {next : Bool → Walk α} {c : Char}
    {yes no : List Char → Except Stuck (α × List Char)}
    (hyes : ∀ r, trimStart cs = c :: r → Follows (next true) r (yes r))
    (hno : Follows (next false) (trimStart cs) (no (trimStart cs))) :
    Follows (eat c >>= next) cs (ifNext c cs yes no) := by
  -- the walk and the scanner look at the same character
  rcases ifNext_cases c cs yes no with ⟨r, hr, heq⟩ | ⟨hne, heq⟩
  · rw [heq]
    exact (follows_eat hr).bind_ok (hyes r hr)
  · rw [heq]
    exact (follows_eat_of_ne hne).bind_ok hno

/-- A walk that expects a character follows the scanner that does. -/
theorem follows_expect (c : Char) (cs : List Char) :
    Follows (expect c) cs (outcome (Grammar.expect c cs)) := by
  rw [outcome_expect]
  exact follows_eat_bind (fun r _ => follows_pure () r) (follows_refuse (.expectedChar c) _)

/-- The match is a first character of names and all characters of names behind it. -/
theorem matchEnd?_cons (c : Char) (r : List Char) :
    matchEnd? (String.ofList (c :: r)) =
      if Grammar.isNameStart c then some (utf8Length (c :: r.takeWhile Grammar.isNamePart))
      else none := by
  unfold matchEnd?
  rw [String.toList_ofList]

/-- The slice up to the end of the match is the name. -/
theorem follows_name_of_match {own : List Char} (h : trimStart cs = own ++ behind)
    (hmatch : matchEnd? (String.ofList (trimStart cs)) = some (utf8Length own)) :
    Follows name cs (.ok (String.ofList own, behind)) := by
  have hslice : slice? (String.ofList (trimStart cs)) 0 (utf8Length own)
      = some (String.ofList own) := by
    rw [h]
    exact Text.slice?_front_ofList own behind
  refine (follows_skipBlanks cs).bind_ok ((follows_rest _).bind_ok ?_)
  rw [hmatch]
  exact (follows_moveBy h rfl).bind_ok (follows_ofSlice hslice behind)

/-- Where nothing matches there is no name, and the walk fails in front of what is there. -/
theorem follows_name_of_no_match (hmatch : matchEnd? (String.ofList (trimStart cs)) = none) :
    Follows name cs (.error ⟨.expectedName, trimStart cs⟩) := by
  refine (follows_skipBlanks cs).bind_ok ((follows_rest _).bind_ok ?_)
  rw [hmatch]
  exact follows_refuse .expectedName _

/-- Whether white space has been skipped already makes no difference to a name. -/
theorem follows_name {ds : List Char} (hds : trimStart ds = trimStart cs) :
    Follows name ds (outcome (Grammar.scanName cs)) := by
  -- either nothing is left, or a name begins there, or some other character
  unfold Grammar.scanName
  split
  · next h =>
    rw [← hds] at h
    have hmatch : matchEnd? (String.ofList (trimStart ds)) = none := by
      rw [h]
      rfl
    have hfollows := follows_name_of_no_match hmatch
    rwa [h] at hfollows
  · next c r h =>
    rw [← hds] at h
    have hmatch := matchEnd?_cons c r
    rw [← h] at hmatch
    split
    · next hstart =>
      rw [if_pos hstart] at hmatch
      have hown : trimStart ds
          = c :: r.takeWhile Grammar.isNamePart ++ r.dropWhile Grammar.isNamePart := by
        rw [h, List.cons_append, List.takeWhile_append_dropWhile]
      exact follows_name_of_match hown hmatch
    · next hstart =>
      rw [if_neg hstart] at hmatch
      have hfollows := follows_name_of_no_match hmatch
      rwa [h] at hfollows

/-! ## Whole texts -/

/-- A walk through a text that ends and gives what was parsed. It never moves back, it only stands
where a character begins or the text ends, and it fails where it stands. -/
structure StaysOnBoundaries (w : Walk α) (text : String) (parsed : LoadResult α)
    (c : TextCursor) : Prop where
  run_eq : w.run (.atStart text) = some (parsed, c)
  descending : (c.position :: c.passed).Pairwise (· ≥ ·)
  onBoundaries : ∀ p ∈ c.position :: c.passed,
    p ≤ text.utf8ByteSize ∧ ∃ front back, text = front ++ back ∧ p = front.utf8ByteSize
  error_eq : ∀ e, parsed = .error e → ∃ fault, e = .parse (.text fault text c.position)

/-- A walk that follows a scanner stays on boundaries, and gives what the scanner gives. -/
theorem Follows.staysOnBoundaries {text : String} {y : Except Stuck (α × List Char)}
    (h : Follows w text.toList y) : ∃ c, StaysOnBoundaries w text (resultOf text y) c := by
  -- all places of the cursor are on record in the last one
  obtain ⟨c, hrun, rfl, hstands⟩ := h (.atStart text) (TextCursor.standsBefore_atStart text)
  refine ⟨c, hrun, hstands.descending, fun p hp => ?_, fun e he => ?_⟩
  · have hboundary := hstands.onBoundaries p hp
    exact ⟨hboundary.le, Text.isBoundary_iff.1 hboundary⟩
  · cases y with
    | ok p => cases he
    | error stuck =>
      refine ⟨stuck.fault, ?_⟩
      rw [← Except.error.inj he, Stuck.error, String.ofList_toList, hstands.position_eq]
      rfl

end Walk

end TableScan
