import TableScan.Text.Blank

/-!
# Locations: lists of patterns

A location is a list of path patterns between commas. Commas inside braces belong to the pattern,
white space around a pattern does not, and empty patterns are dropped.
-/

namespace TableScan.Location

def consPart (c : Char) : List (List Char) → List (List Char)
  | [] => [[c]]
  | part :: parts => (c :: part) :: parts

/-- The parts of a list between the commas outside braces, `depth` of which are open. A closing
brace without an opening one counts for nothing. -/
def splitOutsideBraces (depth : Nat) : List Char → List (List Char)
  | [] => [[]]
  | c :: cs =>
    if c = '\x7b' then consPart c (splitOutsideBraces (depth + 1) cs)
    else if c = '\x7d' then consPart c (splitOutsideBraces (depth - 1) cs)
    else if c = ',' && depth == 0 then [] :: splitOutsideBraces 0 cs
    else consPart c (splitOutsideBraces depth cs)

/-- The patterns of a location. -/
def patterns (location : String) : List String :=
  ((splitOutsideBraces 0 location.toList).map fun part => String.ofList (Text.trim part)).filter
    (!·.isEmpty)

end TableScan.Location
