import TableScan.Text.Bytes
import TableScan.Text.Split

/-!
# Files: paths

Paths are strings of segments with `/` between them, read from the working directory. Empty and `.`
segments stay where they are, `..` steps back one segment, all others are names. Names and paths
have a greatest length in bytes, and a zero byte is in neither.

What is wrong with a path as a string is found by `check` before any directory is looked at. Nothing
is known of what lies outside of the working directory: a path that begins with `/`, as one that
steps back out of the working directory, is answered as not found.
-/

namespace TableScan

/-- Why an operation on files is refused. -/
inductive FileFault where
  | notFound
  | exists
  | notDirectory
  | isDirectory
  | nameTooLong
  | zeroInPath
  | notText
  | endOfFile
  deriving DecidableEq, Repr

def FileFault.message : FileFault → String
  | .notFound => "No such file or directory (os error 2)"
  | .exists => "File exists (os error 17)"
  | .notDirectory => "Not a directory (os error 20)"
  | .isDirectory => "Is a directory (os error 21)"
  | .nameTooLong => "File name too long (os error 36)"
  | .zeroInPath => "file name contained an unexpected NUL byte"
  | .notText => "stream did not contain valid UTF-8"
  | .endOfFile => "failed to fill whole buffer"

namespace Path

def nameLimit : Nat := 255

/-- Paths have fewer bytes than this. -/
def lengthLimit : Nat := 4096

def segments (path : String) : List String := Text.split '/' path

/-- A path below another one. The separator is left out after an empty path and after one that
ends in a separator. -/
def join (path name : String) : String :=
  match path.toList.getLast? with
  | none => name
  | some '/' => path ++ name
  | some _ => path ++ "/" ++ name

/-- Whether a path ends in a separator, and so can only mean a directory. -/
def endsOpen (path : String) : Bool := path.toList.getLast? == some '/'

def staysHere (segment : String) : Bool := segment == "" || segment == "."

/-- Whether a segment stands for a place in the path rather than a name. -/
def isStep (segment : String) : Bool := staysHere segment || segment == ".."

/-- Whether a segment is longer than names are. -/
def isLong (segment : String) : Bool := nameLimit < segment.utf8ByteSize

/-- Refuses a string under which nothing is found whatever the files are. Paths that do not start
at the working directory lead nowhere. -/
def check (path : String) : Except FileFault Unit :=
  if path.toList.contains '\x00' then .error .zeroInPath
  else if lengthLimit ≤ path.utf8ByteSize then .error .nameTooLong
  else if path.isEmpty || path.toList.head? == some '/' then .error .notFound
  else .ok ()

/-- The segments before the last one, and the last one; separators at the end do not count. -/
def cut (path : String) : List String × String :=
  match (segments path).reverse.dropWhile String.isEmpty with
  | [] => ([], "")
  | last :: above => (above.reverse, last)

/-- One segment further, the names up to here given with the last one first. Nothing is known of
the directories around the working directory. -/
def stepInto (names : List String) (segment : String) : Option (List String) :=
  if segment == ".." then
    match names with
    | [] => none
    | _ :: outer => some outer
  else if isStep segment then some names
  else some (segment :: names)

/-- The names that lead to a path from the working directory, if it stays below that. -/
def namesOf (path : String) : Option (List String) :=
  ((segments path).foldlM stepInto []).map List.reverse

/-- The beginnings of a reversed list of segments that end in a name or in `..`, the longest
first. -/
def beginnings : List String → List (List String)
  | [] => []
  | segment :: above =>
    if staysHere segment then beginnings above
    else (segment :: above).reverse :: beginnings above

/-- A path and the directories on its way, the path itself first. A `.` at the end of a path goes
with what is before it. -/
def withParents (path : String) : List String :=
  -- the first of the beginnings is the path itself
  path :: ((beginnings (segments path).reverse).drop 1).map ("/".intercalate ·)

/-- Whether a path is the working directory without leading through any other. -/
def isHere (path : String) : Bool :=
  (segments path).head? == some "." && (segments path).all staysHere

end Path

end TableScan
