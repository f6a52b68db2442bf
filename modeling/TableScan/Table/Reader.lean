import TableScan.Schema.Union
import TableScan.Table.Cursor

/-!
# Reading tables

A reader goes through the rows of several tables as one sequence of records. Without a sort order
the tables come one after another; with one they are merged by key, and of equal keys the table that
is named first goes first.

The projection is resolved against the union of the tables' schemas.

`RecordReader` is what everything that hands out records has in common; `TableReader` is the reader
of tables.
-/

namespace TableScan

/-- Hands out records one by one. Files are read from the disk as it is at the call. -/
class RecordReader (ρ : Type) where
  /-- The schema of the records. -/
  schema : ρ → Schema
  /-- Goes on with the first record whose key is not below the given one. -/
  seekTo : Disk → RowKey → Step ρ Unit
  /-- The next record; nothing at the end. -/
  next : Disk → Step ρ (Option Record)
  /-- Lets go of what is held open. -/
  close : Step ρ Unit

structure TableReader where
  schema : Schema
  sorted : Bool
  cursors : List TableCursor
  deriving Repr

namespace TableReader

/-- Opens tables through projection text, merged by an order if there is one. -/
def ofTables (disk : Disk) (tables : List Table) (order : Option SortOrder)
    (projection : String) : LoadResult TableReader := do
  let logical ← Schema.unionOf (tables.map Table.schema)
  let projection ← Projection.parse logical projection
  let cursors ← tables.mapM (TableCursor.openTable disk projection order)
  return ⟨projection.schema, order.isSome, cursors⟩

/-- Performs a step on each cursor in turn; a failure ends the run. -/
def forCursors (step : Step TableCursor Unit) : Step (List TableCursor) Unit := fun cursors =>
  match cursors with
  | [] => ⟨.ok (), [], []⟩
  | s :: rest =>
    match step s with
    | ⟨.error e, s', log⟩ => ⟨.error e, s' :: rest, log⟩
    | ⟨.ok (), s', log⟩ =>
      let r := forCursors step rest
      ⟨r.result, s' :: r.state, log ++ r.log⟩

/-- The least key among the heads of cursors. -/
def leastKey : List TableCursor → Option RowKey
  | [] => none
  | s :: rest =>
    match s.head, leastKey rest with
    | none, least => least
    | some (key, _), none => some key
    -- of equal keys the one in front counts, which keeps the order of the tables
    | some (key, _), some least => if least < key then some least else some key

/-- Takes the first head with a given key, projected. -/
def takeKey (key : RowKey) : List TableCursor → Option Record × List TableCursor
  | [] => (none, [])
  | s :: rest =>
    match s.head with
    | some (k, row) =>
      if k = key then (some (s.projected row), s.dropHead :: rest)
      else
        let r := takeKey key rest
        (r.1, s :: r.2)
    | none =>
      let r := takeKey key rest
      (r.1, s :: r.2)

/-- Takes the least head, the first one of several. -/
def takeLeast (cursors : List TableCursor) : Option Record × List TableCursor :=
  match leastKey cursors with
  | none => (none, cursors)
  | some key => takeKey key cursors

/-- The next record of a merge: every cursor shows its head, and the least one is taken. -/
def nextMerged (disk : Disk) : Step (List TableCursor) (Option Record) := do
  forCursors (TableCursor.loadHead disk)
  let cursors ← Step.get
  let r := takeLeast cursors
  Step.update fun _ => r.2
  return r.1

/-- The next record of tables one after another; a table that has ended is left behind. -/
def nextInTurn (disk : Disk) : Step (List TableCursor) (Option Record) := fun cursors =>
  match cursors with
  | [] => ⟨.ok none, [], []⟩
  | s :: rest =>
    match TableCursor.nextRow disk s with
    | ⟨.error e, s', log⟩ => ⟨.error e, s' :: rest, log⟩
    | ⟨.ok (some row), s', log⟩ => ⟨.ok (some (s'.projected row)), s' :: rest, log⟩
    -- the table has ended, and its cursor is not kept
    | ⟨.ok none, _, log⟩ =>
      let r := nextInTurn disk rest
      ⟨r.result, r.state, log ++ r.log⟩

def onCursors {α : Type} (step : Step (List TableCursor) α) : Step TableReader α :=
  step.zoom cursors fun cursors r => { r with cursors := cursors }

/-- Goes on with the first record whose key is not below the given one. -/
def seekTo (disk : Disk) (key : RowKey) : Step TableReader Unit := do
  let r ← Step.get
  if r.sorted then onCursors (forCursors (TableCursor.dropBelow disk key))
  else Step.fail (.configuration .seekInUnsortedTable)

def next (disk : Disk) : Step TableReader (Option Record) := do
  let r ← Step.get
  if r.sorted then onCursors (nextMerged disk) else onCursors (nextInTurn disk)

def close : Step TableReader Unit := Step.update fun r => { r with cursors := [] }

instance : RecordReader TableReader where
  schema := schema
  seekTo := seekTo
  next := next
  close := close

end TableReader

end TableScan
