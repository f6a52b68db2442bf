import TableScan.Settings
import TableScan.Projection.Selector
import TableScan.Table.Reader

/-!
# Storage engines

What a load needs of a storage engine: schemas, sort columns, shares and readers of the input
tables that the settings name. `StorageEngine.ofDisk` is the engine of the table directories on a
disk.
-/

namespace TableScan

/-- A share of the input that goes to one partition. -/
structure InputShare where
  index : Nat
  paths : List String
  deriving DecidableEq, Repr

namespace InputShare

def toJson (s : InputShare) : Json :=
  .object [("index", .ofNat s.index), ("paths", .ofStrings s.paths)]

def parse? (text : String) : Option InputShare := do
  let tree ← Json.Syntax.parse text.toList
  match ← tree.fields? ["index", "paths"] with
  | [index, paths] =>
    return {
      index := ← Json.Syntax.required Json.Syntax.asNat? index
      paths := ← Json.Syntax.required Json.Syntax.asStrings? paths }
  | _ => none

end InputShare

/-- A storage engine whose readers are of type `ρ`. -/
structure StorageEngine (ρ : Type) where
  /-- The schema of the table at a path. -/
  schemaOf : String → Settings → LoadResult Schema
  /-- The sort order of the input, which must be the given one if there is one. -/
  agreedOrder : Settings → Option SortOrder → LoadResult SortOrder
  /-- The sort order of the input, if its tables share one. -/
  sharedOrder : Settings → LoadResult (Option SortOrder)
  /-- The shares of the input. -/
  shares : Settings → LoadResult (List InputShare)
  /-- A reader of the whole input through projection text. -/
  openInput : Settings → String → LoadResult ρ
  /-- A reader of one share through projection text. -/
  openShare : Settings → InputShare → String → LoadResult ρ

namespace StorageEngine

/-- Whether the settings want the input merged by key. -/
def wantsSorted (settings : Settings) : Bool := settings.flag SettingKey.inputSorted.name

/-- The tables at some paths, at least one. -/
def tablesAt (disk : Disk) (paths : List String) : LoadResult (List Table) :=
  if paths.isEmpty then .error (.configuration (.noTable none))
  else paths.mapM (Table.openAt disk)

def inputTables (disk : Disk) (settings : Settings) : LoadResult (List Table) := do
  let paths ← settings.tablePaths
  tablesAt disk paths

def readerOf (disk : Disk) (paths : List String) (sorted : Bool) (projection : String) :
    LoadResult TableReader := do
  let tables ← tablesAt disk paths
  -- the order that the tables share counts, not one that was asked for
  let order ← if sorted then (Table.commonOrder tables).map some else pure none
  TableReader.ofTables disk tables order projection

/-- The sort order of the input tables, which must be `required` if there is one. -/
def agreedOrderIn (disk : Disk) (settings : Settings) (required : Option SortOrder) :
    LoadResult SortOrder := do
  let tables ← inputTables disk settings
  let order ← Table.commonOrder tables
  match required with
  | some wanted =>
    if wanted = order then return order
    else .error (.configuration (.inputSortedOtherwise order.text wanted.text))
  | none => return order

/-- One share for a merged input; otherwise one for every table. -/
def sharesOf (settings : Settings) : LoadResult (List InputShare) := do
  let paths ← settings.tablePaths
  if paths.isEmpty then .error (.configuration (.noTable none))
  else if wantsSorted settings then return [⟨0, paths⟩]
  else return paths.mapIdx fun index path => ⟨index, [path]⟩

/-- The storage engine of the table directories on a disk. -/
def ofDisk (disk : Disk) : StorageEngine TableReader where
  schemaOf path _ := (Table.openAt disk path).map Table.schema
  agreedOrder := agreedOrderIn disk
  sharedOrder settings := (inputTables disk settings).map fun tables =>
    (Table.commonOrder tables).toOption
  shares := sharesOf
  openInput settings projection := do
    let paths ← settings.tablePaths
    readerOf disk paths (wantsSorted settings) projection
  openShare settings share projection :=
    readerOf disk share.paths (wantsSorted settings) projection

end StorageEngine

/-- The job with projection text, which must be well formed. -/
def JobSettings.withProjection (job : JobSettings) (text : String) : LoadResult JobSettings := do
  let _ ← Selector.parseAll text
  return job.set SettingKey.inputProjection.name text

/-- The projection text of a job; blank text counts as none. -/
def Settings.projection? (s : Settings) : Option String :=
  (s.get? SettingKey.inputProjection.name).filter (!Text.isBlankText ·)

end TableScan
