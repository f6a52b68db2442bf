import TableScan.Files.Path
import TableScan.Keyed

/-!
# Files: trees of names

The names below the working directory: a directory holds its entries in the order of their names,
and a file is told by its number, under which its bytes are kept elsewhere (`Disk`). So a file that
has lost its name, or whose name has gone to another one, is still the file that it was.

A path is followed segment by segment (`follow`): what it leads through has to be there, also where
`..` steps back from it. Around the working directory there are directories in which nothing is
known to be.

* `find` looks at a path,
* `makeDir`, `makeDirs`, `putAt` change what is there.
-/

namespace TableScan

/-- A file by its number, or a directory with its entries in the order of their names. -/
inductive FileTree where
  | file (number : Nat)
  | dir (entries : List (String × FileTree))
  deriving Repr

namespace FileTree

def empty : FileTree := .dir []

def isDir : FileTree → Bool
  | .dir _ => true
  | .file _ => false

/-! ## Looking -/

/-- The tree at the end of some segments, seen from `here`; `above` holds the directories around
it, the innermost first. Only directories have segments below them. -/
def follow (above : List FileTree) (here : FileTree) : List String → Except FileFault FileTree
  | [] => .ok here
  | segment :: rest =>
    match here with
    | .file _ => .error .notDirectory
    | .dir entries =>
      if segment == ".." then
        match above with
        -- nothing is known of what is around the working directory
        | [] => follow [] empty rest
        | outer :: further => follow further outer rest
      else if Path.isStep segment then follow above here rest
      else if Path.isLong segment then .error .nameTooLong
      else match Keyed.find? segment entries with
        | some t => follow (here :: above) t rest
        | none => .error .notFound

def find (tree : FileTree) (path : String) : Except FileFault FileTree :=
  match Path.check path with
  | .error e => .error e
  | .ok () => follow [] tree (Path.segments path)

/-- Whether there is a directory at a path. -/
def isDirAt (tree : FileTree) (path : String) : Bool :=
  match tree.find path with
  | .ok t => t.isDir
  | .error _ => false

/-- The entries of the directory in which the last segment of a path stands, and that segment. -/
def spot (tree : FileTree) (path : String) :
    Except FileFault (List (String × FileTree) × String) :=
  match Path.check path with
  | .error e => .error e
  | .ok () =>
    let (above, last) := Path.cut path
    match follow [] tree above with
    | .error e => .error e
    | .ok (.file _) => .error .notDirectory
    | .ok (.dir entries) => if Path.isLong last then .error .nameTooLong else .ok (entries, last)

/-! ## Changing -/

/-- Puts a tree, or nothing, under the last of some names. Without the directories on the way
nothing changes. -/
def put (new : Option FileTree) : List String → FileTree → FileTree
  | [name], .dir entries =>
    match new with
    | some t => .dir (Keyed.insert name t entries)
    | none => .dir (Keyed.erase name entries)
  | name :: next :: rest, .dir entries =>
    match Keyed.find? name entries with
    | some t => .dir (Keyed.insert name (put new (next :: rest) t) entries)
    | none => .dir entries
  | _, here => here

/-- Puts a tree, or nothing, at a path. The surroundings of the working directory do not change. -/
def putAt (tree : FileTree) (path : String) (new : Option FileTree) : Except FileFault FileTree :=
  match Path.namesOf path with
  | some names => .ok (tree.put new names)
  | none => .error .notFound

/-- Makes the directory at a path. The directories on the way must be there, and nothing else may
be at the path. -/
def makeDir (tree : FileTree) (path : String) : Except FileFault FileTree :=
  match tree.spot path with
  | .error e => .error e
  | .ok (entries, last) =>
    if Path.isStep last || (Keyed.find? last entries).isSome then .error .exists
    else tree.putAt path (some empty)

/-- Makes the directories at some paths, each on the way of the one before it, as far as they are
not there. Those that were made before one is refused stay. -/
def makeAll : List String → FileTree → Except FileFault Unit × FileTree
  | [], tree => (.ok (), tree)
  | path :: parents, tree =>
    match tree.makeDir path with
    | .ok made => (.ok (), made)
    | .error .notFound =>
      -- a directory on the way is missing, so the parents come first
      match makeAll parents tree with
      | (.error e, tree) => (.error e, tree)
      | (.ok (), tree) =>
        match tree.makeDir path with
        | .ok made => (.ok (), made)
        | .error e => (if tree.isDirAt path then .ok () else .error e, tree)
    | .error e => (if tree.isDirAt path then .ok () else .error e, tree)

def makeDirs (tree : FileTree) (path : String) : Except FileFault Unit × FileTree :=
  if path.isEmpty then (.ok (), tree) else makeAll (Path.withParents path) tree

end FileTree

end TableScan
