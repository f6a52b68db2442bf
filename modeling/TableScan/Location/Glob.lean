import TableScan.Files.Tree
import TableScan.Location.Braces
import TableScan.Location.Wildcard

/-!
# Locations: matching a file tree

Which paths of a file tree a pattern stands for. The pattern is cut at its separators, and the
tree is walked from the root along the segments: segments without wildcards are looked up, the
others are matched against the names of a directory, in their order. A directory comes before what
lies in it.

`FileTree.pathsOf` is the whole: brace groups are expanded first, and of the alternatives those
without wildcards are looked up as they are written.
-/

namespace TableScan

open Location

/-- A path that a pattern stands for. -/
structure FoundPath where
  path : String
  isDir : Bool
  deriving DecidableEq, Repr

namespace FileTree

def look? (tree : FileTree) (path : String) : Option FoundPath :=
  match tree.find path with
  | .ok t => some ⟨path, t.isDir⟩
  | .error _ => none

/-- Holds of the pattern segment that stands for any number of directories. -/
def isAnyDirs (segment : List Wildcard) : Bool := segment == [.anyDirs]

/-- A path below the directory that a walk is in. The directory where walks start is not written. -/
def walkJoin (path name : String) : String :=
  if Path.isHere path then name else Path.join path name

/-- Holds of the entries that every directory has without listing them. -/
def isSpecial (name : String) : Bool := name == "." || name == ".."

/-- The unlisted entries that a segment stands for. Its first character has to be written. -/
def specials (segment : List Wildcard) : List String :=
  if segment.head? == some (.char '.') then
    ["..", "."].filter fun name => Wildcard.matchesName segment name.toList
  else []

/-! The tree gets smaller on the way from a directory to its entries and from these to each one. -/

theorem sizeOf_entries_lt (entries : List (String × FileTree)) :
    sizeOf entries < sizeOf (FileTree.dir entries) := by
  rw [FileTree.dir.sizeOf_spec]
  omega

theorem sizeOf_node_lt (name : String) (node : FileTree) (more : List (String × FileTree)) :
    sizeOf node < sizeOf ((name, node) :: more) := by
  rw [List.cons.sizeOf_spec, Prod.mk.sizeOf_spec]
  omega

theorem sizeOf_more_lt (name : String) (node : FileTree) (more : List (String × FileTree)) :
    sizeOf more < sizeOf ((name, node) :: more) := by
  rw [List.cons.sizeOf_spec]
  omega

section

variable (tree : FileTree) (dirsOnly : Bool)

def arrived (path : String) (node : FileTree) : List FoundPath :=
  if dirsOnly && !node.isDir then [] else [⟨path, node.isDir⟩]

mutual

/-- What the segments stand for below the node at a path. -/
def search (segments : List (List Wildcard)) (path : String) (node : FileTree) :
    List FoundPath :=
  match segments with
  | [] => []
  | segment :: rest =>
    match Wildcard.literal? segment with
    | some cs =>
      let name := String.ofList cs
      let next := walkJoin path name
      if isSpecial name && !node.isDir then []
      else match tree.find next with
        | .error _ => []
        | .ok t => if rest.isEmpty then arrived dirsOnly next t else search rest next t
    | none =>
      match node with
      | .file _ => []
      | .dir entries =>
        ((specials segment).flatMap fun name =>
          match tree.find (Path.join path name) with
          | .error _ => []
          | .ok t =>
            if rest.isEmpty then arrived dirsOnly (Path.join path name) t
            else search rest (Path.join path name) t)
        ++ visitAll (segment :: rest) path entries
termination_by (segments.length, sizeOf node, 0)
decreasing_by
  · exact Prod.Lex.left _ _ (Nat.lt_succ_self rest.length)
  · exact Prod.Lex.left _ _ (Nat.lt_succ_self rest.length)
  · exact Prod.Lex.right _ (Prod.Lex.left _ _ (sizeOf_entries_lt entries))

/-- What the segments stand for among the entries of the directory at a path. -/
def visitAll (segments : List (List Wildcard)) (path : String)
    (entries : List (String × FileTree)) : List FoundPath :=
  match entries with
  | [] => []
  | (name, node) :: more =>
    visit segments (walkJoin path name) name node ++ visitAll segments path more
termination_by (segments.length, sizeOf entries, 0)
decreasing_by
  · exact Prod.Lex.right _ (Prod.Lex.left _ _ (sizeOf_node_lt name node more))
  · exact Prod.Lex.right _ (Prod.Lex.left _ _ (sizeOf_more_lt name node more))

/-- What the segments stand for at a listed entry and below it. A segment for any number of
directories is tried for none, then for this one and more. -/
def visit (segments : List (List Wildcard)) (path name : String) (node : FileTree) :
    List FoundPath :=
  match segments with
  | [] => []
  | segment :: rest =>
    if isAnyDirs segment then
      have _hle : (rest.dropWhile isAnyDirs).length ≤ rest.length :=
        (List.dropWhile_sublist _).length_le
      let behind := rest.dropWhile isAnyDirs
      if node.isDir then
        (if behind.isEmpty then [⟨path, true⟩] else matched behind path name node)
          ++ search (segment :: rest) path node
      else matched behind path name node
    else matched (segment :: rest) path name node
termination_by (segments.length, sizeOf node, 2)
decreasing_by
  · exact Prod.Lex.left _ _ (Nat.lt_succ_of_le _hle)
  · exact Prod.Lex.right _ (Prod.Lex.right _ Nat.two_pos)
  · exact Prod.Lex.left _ _ (Nat.lt_succ_of_le _hle)
  · exact Prod.Lex.right _ (Prod.Lex.right _ Nat.one_lt_two)

/-- What the segments stand for when the first of them is held against a name. -/
def matched (segments : List (List Wildcard)) (path name : String) (node : FileTree) :
    List FoundPath :=
  match segments with
  | [] => []
  | segment :: rest =>
    if Wildcard.matchesName segment name.toList then
      if rest.isEmpty then arrived dirsOnly path node else search rest path node
    else []
termination_by (segments.length, sizeOf node, 1)
decreasing_by exact Prod.Lex.left _ _ (Nat.lt_succ_self rest.length)

end

end

/-- The segments of a pattern; a separator at its end makes no segment. -/
def segmentsOf (pattern : List Char) : List (List Char) :=
  match (Text.splitChars '/' pattern).reverse with
  | [] :: rest => rest.reverse
  | parts => parts.reverse

/-- The paths that a pattern with wildcards stands for, or where it is at fault. The pattern is
read once as a whole, then segment by segment. -/
def glob (tree : FileTree) (pattern : List Char) :
    Except (TextFault × Nat) (List FoundPath) := do
  let _ ← Wildcard.compile pattern
  let segments ← (segmentsOf pattern).mapM Wildcard.compile
  let dirsOnly := pattern.getLast? == some '/'
  return tree.search dirsOnly segments "." tree

def pathsOfAlternative (tree : FileTree) (pattern : String) : LoadResult (List FoundPath) :=
  if Wildcard.isPattern pattern then
    match tree.glob pattern.toList with
    | .ok found => .ok found
    | .error (fault, position) => .error (.parse (.text fault pattern position))
  else .ok (tree.look? pattern).toList

/-- The paths that a pattern stands for, alternative by alternative. -/
def pathsOf (tree : FileTree) (pattern : String) : LoadResult (List FoundPath) := do
  let found ← (braceAlternatives pattern).mapM tree.pathsOfAlternative
  return found.flatten

end FileTree

end TableScan
