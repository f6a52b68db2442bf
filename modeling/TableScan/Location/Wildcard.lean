import TableScan.Error

/-!
# Locations: wildcards

Path patterns with wildcards: `*` stands for any run of characters, `?` for any one, `[ab-c]` and
`[!ab-c]` for one that is or is not in a set, all within one segment of a path; `**` is a segment
by itself and stands for any number of directories.

* `Wildcard.compile` reads a pattern or tells at which character it is at fault,
* `Wildcard.matchesName` matches the name of one segment.
-/

namespace TableScan.Location

/-- A part of a character set. -/
inductive CharRange where
  | single (c : Char)
  | range (low high : Char)
  deriving DecidableEq, Repr

namespace CharRange

def contains (c : Char) : CharRange → Bool
  | .single d => c == d
  | .range low high => low ≤ c && c ≤ high

/-- The parts of a set: `a-b` is a range, anything else stands for itself. -/
def parse : List Char → List CharRange
  | a :: '-' :: b :: rest => .range a b :: parse rest
  | a :: rest => .single a :: parse rest
  | [] => []

end CharRange

inductive Wildcard where
  | char (c : Char)
  | anyChar
  | anyRun
  | anyDirs
  | within (set : List CharRange)
  | except (set : List CharRange)
  deriving DecidableEq, Repr

namespace Wildcard

def isPattern (text : String) : Bool := text.toList.any fun c => c == '*' || c == '?' || c == '['

/-- What stands before the next closing bracket, and what behind it. -/
def toBracket : List Char → Option (List Char × List Char)
  | [] => none
  | ']' :: rest => some ([], rest)
  | c :: rest => (toBracket rest).map fun r => (c :: r.1, r.2)

theorem length_toBracket {cs inside rest : List Char}
    (h : toBracket cs = some (inside, rest)) : inside.length + rest.length < cs.length := by
  induction cs generalizing inside with
  | nil => simp [toBracket] at h
  | cons c cs ih =>
    unfold toBracket at h
    split at h
    · simp_all
    · simp_all
    · next heq =>
      cases heq
      obtain ⟨r, hr, he⟩ := Option.map_eq_some_iff.1 h
      cases he
      have := ih hr
      simp only [List.length_cons]; omega

/-- The tokens of a pattern, `position` characters of which are read; `fresh` tells whether the
last one of them was a separator, or there was none. -/
def tokens (position : Nat) (fresh : Bool) (cs : List Char) :
    Except (TextFault × Nat) (List Wildcard) :=
  match cs with
  | [] => .ok []
  | '?' :: rest => (tokens (position + 1) false rest).map (.anyChar :: ·)
  -- a run of stars longer than two is at fault wherever it stands
  | '*' :: '*' :: '*' :: _ => .error (.wildcardRun, position + 2)
  | '*' :: '*' :: rest =>
    if fresh then
      match rest with
      | [] => .ok [.anyDirs]
      | '/' :: more => (tokens (position + 3) true more).map (.anyDirs :: ·)
      | _ => .error (.wildcardComponent, position + 2)
    else .error (.wildcardComponent, position - 1)
  | '*' :: rest => (tokens (position + 1) false rest).map (.anyRun :: ·)
  -- a bracket right behind the opening one belongs to the set
  | '[' :: '!' :: c :: rest =>
    match h : toBracket rest with
    | some (inside, more) =>
      (tokens (position + 4 + inside.length) false more).map
        (.except (CharRange.parse (c :: inside)) :: ·)
    | none => .error (.rangePattern, position)
  | '[' :: c :: rest =>
    if c = '!' then .error (.rangePattern, position)
    else match h : toBracket rest with
      | some (inside, more) =>
        (tokens (position + 3 + inside.length) false more).map
          (.within (CharRange.parse (c :: inside)) :: ·)
      | none => .error (.rangePattern, position)
  | '[' :: _ => .error (.rangePattern, position)
  | c :: rest => (tokens (position + 1) (c == '/') rest).map (.char c :: ·)
termination_by cs.length
decreasing_by
  all_goals simp_wf
  all_goals first
    | omega
    | (have hlt := length_toBracket h; omega)

def compile (pattern : List Char) : Except (TextFault × Nat) (List Wildcard) :=
  tokens 0 true pattern

/-- The characters that a pattern stands for, if it has no wildcard. -/
def literal? : List Wildcard → Option (List Char)
  | [] => some []
  | .char c :: rest => (literal? rest).map (c :: ·)
  | _ => none

def acceptsChar (c : Char) : Wildcard → Bool
  | .char d => c == d
  | .anyChar => true
  | .within set => set.any (·.contains c)
  | .except set => !set.any (·.contains c)
  | .anyRun => false
  | .anyDirs => false

def matchesName : List Wildcard → List Char → Bool
  | [], cs => cs.isEmpty
  | .anyRun :: rest, cs => matchesName rest cs || matchesAfter rest cs
  | .anyDirs :: rest, cs => matchesName rest cs || matchesAfter rest cs
  | _ :: _, [] => false
  | t :: rest, c :: cs => t.acceptsChar c && matchesName rest cs
where
  /-- Whether the tokens stand for what is left of a name behind one or more characters. -/
  matchesAfter (rest : List Wildcard) : List Char → Bool
    | [] => false
    | _ :: cs => matchesName rest cs || matchesAfter rest cs

end Wildcard

end TableScan.Location
