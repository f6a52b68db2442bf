import TableScan.Step
import TableScan.Table.Basic
import TableScan.Table.Frame

/-!
# Writing tables

A writer lays out a table directory and appends rows to it. The rows of a sorted table come in
non-decreasing order of their keys.

The frames of appended rows go to the file that was opened when the table was created, whatever
becomes of its name. They are held back until there is no room to hold more, and what is still held
back when the writer is finished is written then.

The bytes of the row file are told as `rowBytes`: what was written together with what is held back.
Flushing moves bytes from the one to the other and loses none (`rowBytes_flush`).
-/

namespace TableScan

/-- A table in the making: what rows must be like, the number of the row file, up to where it was
written, and the bytes held back. -/
structure TableWriter where
  dir : String
  schema : Schema
  keys : Option KeyLayout
  lastKey : Option RowKey
  file : Nat
  position : Nat
  held : List UInt8
  rows : Nat
  deriving DecidableEq, Repr

namespace TableWriter

/-! ## Creating -/

def putDirs (dir : String) : Step Disk Unit := fun disk =>
  match disk.makeDirs dir with
  | (.ok (), disk) => ⟨.ok (), disk, []⟩
  | (.error cause, disk) => ⟨.error (.io (.directoryUncreated dir cause)), disk, []⟩

def putText (path text : String) : Step Disk Unit := fun disk =>
  match disk.writeText path text with
  | .ok disk => ⟨.ok (), disk, []⟩
  | .error cause => ⟨.error (.io (.unwritten path cause)), disk, []⟩

/-- Opens the row file and empties it. -/
def putRows (path : String) : Step Disk Nat := fun disk =>
  match disk.openFile path with
  | .ok (file, disk) => ⟨.ok file, disk.setBytes file [], []⟩
  | .error cause => ⟨.error (.io (.rowsUnopened path cause)), disk, []⟩

/-- Writes down the sort columns of a sorted table; an unsorted one has none. -/
def putSortInfo (dir : String) (schema : Schema) (sortColumns : List String) :
    Step Disk (Option KeyLayout) := do
  if sortColumns.isEmpty then return none
  else
    let order ← Step.ofResult (SortOrder.ofNames sortColumns schema)
    let keys ← Step.ofResult (KeyLayout.ofOrder order schema)
    putText (Table.sortInfoPath dir) (",".intercalate order.names)
    return some keys

/-- Creates a table, or starts an existing one over. The schema is written first, then the sort
columns are checked and written, then the row file is emptied. -/
def create (dir : String) (schema : Schema) (sortColumns : List String) :
    Step Disk TableWriter := do
  putDirs dir
  putText (Table.schemaPath dir) schema.text
  let keys ← putSortInfo dir schema sortColumns
  let file ← putRows (Table.rowFilePath dir)
  return ⟨dir, schema, keys, none, file, 0, [], 0⟩

/-! ## Writing bytes -/

def holdLimit : Nat := 8192

/-- Writes what is held back into the row file, behind what was written before. -/
def flush (w : TableWriter) (disk : Disk) : Disk × TableWriter :=
  (disk.writeAt w.file w.position w.held,
    { w with position := w.position + w.held.length, held := [] })

/-- Takes bytes for the row file. They are held back where there is room for them; otherwise those
held back before are written, and bytes that reach the limit on their own follow at once. -/
def put (bytes : List UInt8) (w : TableWriter) (disk : Disk) : Disk × TableWriter :=
  if bytes.length < holdLimit && w.held.length + bytes.length ≤ holdLimit then
    (disk, { w with held := w.held ++ bytes })
  else
    let r := w.flush disk
    -- what comes later is held back behind the bytes that are now written
    let w := { r.2 with held := bytes }
    if bytes.length < holdLimit then (r.1, w) else w.flush r.1

/-- The row file as it will be once nothing is held back. -/
def rowBytes (w : TableWriter) (disk : Disk) : List UInt8 :=
  (disk.bytesOf w.file).take w.position ++ w.held

/-- Flushing moves bytes and loses none, where the row file reaches up to the writer's place. -/
theorem rowBytes_flush {w : TableWriter} {disk : Disk} (hfile : w.file < disk.contents.length)
    (hposition : w.position ≤ (disk.bytesOf w.file).length) :
    (w.flush disk).2.rowBytes (w.flush disk).1 = w.rowBytes disk := by
  have hbytes := Disk.bytesOf_writeAt_self hfile hposition w.held
  simp only [rowBytes, flush, hbytes, Disk.take_overlay hposition, List.append_nil]

/-! ## Appending rows -/

/-- The key of a row, which may not be below the last one; none in an unsorted table. -/
def nextKey (w : TableWriter) (row : Record) : LoadResult (Option RowKey) :=
  match w.keys with
  | none => .ok none
  | some keys => do
    let key ← keys.keyOfRecord row
    if w.lastKey.any (key < ·) then .error (.configuration (.rowOutOfOrder w.rows w.dir))
    else .ok (some key)

/-- A row in the form in which it will be read, with its key. That form settles the widths of
numbers, and values of a wrong type have none. -/
def accepted (w : TableWriter) (row : Record) : LoadResult (Record × Option RowKey) := do
  let row ← Record.ofJson w.schema row.toJson
  let key ← w.nextKey row
  return (row, key)

/-- Appends a row; a row that is refused changes nothing. -/
def append (row : Record) : Step (Disk × TableWriter) Unit := fun (disk, w) =>
  match w.accepted row with
  | .error e => ⟨.error e, (disk, w), []⟩
  | .ok (row, key) =>
    ⟨.ok (), { w with lastKey := key, rows := w.rows + 1 }.put (Table.Frame.ofRow row) disk, []⟩

/-- Writes what is still held back, and tells the number of rows. -/
def finish (w : TableWriter) : Step Disk Nat := fun disk => ⟨.ok w.rows, (w.flush disk).1, []⟩

end TableWriter

end TableScan
