import TableScan.Projection.Basic
import TableScan.Table.Basic
import TableScan.Table.RowFile

/-!
# Reading one table

A cursor is one table that is read through a projection. Rows are decoded by the table's own
schema, and a projected row has the columns of the projection: a column that the table lacks reads
as null, and a map that is narrowed keeps only the wanted keys. Where tables are merged by key, the
cursor holds the next row with its key as its *head*.

A row is used up when it is projected: its values are moved into the columns one after another, and
null is left where a value was.
-/

namespace TableScan

/-- Where a projected column comes from: its position in the table's rows, if the table has it, and
the keys that are wanted of a map. -/
structure FieldOrigin where
  position : Option Nat
  subfields : List String
  deriving DecidableEq, Repr

namespace FieldOrigin

def of (schema : Schema) (selector : Selector) : FieldOrigin :=
  ⟨schema.indexOf? selector.name, selector.subfields⟩

/-- A map without the keys that are not wanted; no wanted keys stand for all. -/
def narrow (subfields : List String) : Value → Value
  | .map entries =>
    if subfields.isEmpty then .map entries
    else .map (entries.filter fun e => subfields.contains e.1)
  | v => v

/-- Moves the value of a column out of a row, and gives the row that is left. A column that the row
does not have is null, and takes nothing. -/
def moveOut (c : FieldOrigin) (row : Record) : Value × Record :=
  match c.position with
  | none => (.null, row)
  -- behind the end of the row there is nothing to take, and `set` changes nothing
  | some p => (row[p]?.getD .null, row.set p .null)

/-- Fills columns from a row, one after another. What one column has taken is gone for the columns
behind it. -/
def fill : (columns : List FieldOrigin) → (row : Record) → Record
  | [], _ => []
  | c :: columns, row =>
    let taken := c.moveOut row
    narrow c.subfields taken.1 :: fill columns taken.2

end FieldOrigin

/-- A table that is being read. -/
structure TableCursor where
  table : Table
  file : RowFile
  columns : List FieldOrigin
  keys : Option KeyLayout
  head : Option (RowKey × Record)
  done : Bool
  deriving Repr

namespace TableCursor

/-- Opens a table through a projection, for a merge by an order if there is one. -/
def openTable (disk : Disk) (projection : Projection) (order : Option SortOrder)
    (table : Table) : LoadResult TableCursor := do
  let keys ← match order with
    | some order => (KeyLayout.ofOrder order table.schema).map some
    | none => pure none
  let file ← RowFile.openAt disk (Table.rowFilePath table.path)
  return ⟨table, file, projection.selectors.map (FieldOrigin.of table.schema), keys, none, false⟩

def projected (s : TableCursor) (row : Record) : Record := FieldOrigin.fill s.columns row

/-- The row that a payload spells. -/
def rowOf (s : TableCursor) (payload : Json) : LoadResult Record :=
  match Record.ofJson s.table.schema payload with
  | .ok row => .ok row
  | .error e => .error (.io (.rowMalformed e.message s.file.path))

/-- Reads the next row of the table; nothing at its end. -/
def nextRow (disk : Disk) : Step TableCursor (Option Record) := fun s =>
  if s.done then ⟨.ok none, s, []⟩
  else match RowFile.next disk s.file with
    | ⟨.error e, file, log⟩ => ⟨.error e, { s with file := file }, log⟩
    -- an end once met is not looked for again
    | ⟨.ok none, file, log⟩ => ⟨.ok none, { s with file := file, done := true }, log⟩
    | ⟨.ok (some payload), file, log⟩ =>
      match s.rowOf payload with
      | .ok row => ⟨.ok (some row), { s with file := file }, log⟩
      | .error e => ⟨.error e, { s with file := file }, log⟩

/-- The key of a row; rows of a cursor that is not merged have the empty key. -/
def keyOf (s : TableCursor) (row : Record) : LoadResult RowKey :=
  match s.keys with
  | some keys => keys.keyOfRecord row
  | none => .ok ⟨[]⟩

/-- Reads the head, unless it is there already. -/
def loadHead (disk : Disk) : Step TableCursor Unit := fun s =>
  if s.head.isSome then ⟨.ok (), s, []⟩
  else match nextRow disk s with
    | ⟨.error e, s', log⟩ => ⟨.error e, s', log⟩
    | ⟨.ok none, s', log⟩ => ⟨.ok (), s', log⟩
    | ⟨.ok (some row), s', log⟩ =>
      match s'.keyOf row with
      | .ok key => ⟨.ok (), { s' with head := some (key, row) }, log⟩
      -- the row is lost: it was read, and no later call sees it
      | .error e => ⟨.error e, s', log⟩

def dropHead (s : TableCursor) : TableCursor := { s with head := none }

/-- A bound for the rows that are still to come from a disk. -/
def pending (disk : Disk) (s : TableCursor) : Nat :=
  s.file.pending disk + if s.head.isSome then 1 else 0

/-- A row that was read was taken from the file, and the head is not touched. -/
theorem nextRow_some {disk : Disk} {s s' : TableCursor} {row : Record} {log : List Log.Entry}
    (h : nextRow disk s = ⟨.ok (some row), s', log⟩) :
    s'.file.pending disk < s.file.pending disk ∧ s'.head = s.head := by
  unfold nextRow at h
  split at h
  · simp at h
  · split at h
    · simp at h
    · simp at h
    · next _ payload file log' hn =>
      split at h
      · simp only [Outcome.mk.injEq] at h
        obtain ⟨_, rfl, _⟩ := h
        exact ⟨RowFile.pending_next_lt hn, rfl⟩
      · simp at h

/-- Without its head, a cursor that has one has less to come than before it was filled. -/
theorem pending_dropHead_lt {disk : Disk} {s s' : TableCursor} {log : List Log.Entry}
    (h : loadHead disk s = ⟨.ok (), s', log⟩) (hh : s'.head.isSome) :
    s'.dropHead.pending disk < s.pending disk := by
  unfold loadHead at h
  split at h
  · next hs =>
    simp only [Outcome.mk.injEq] at h
    obtain ⟨_, rfl, _⟩ := h
    simp [pending, dropHead, hs]
  · next hs =>
    split at h
    · simp at h
    · next s1 log1 hr =>
      simp only [Outcome.mk.injEq] at h
      obtain ⟨_, rfl, _⟩ := h
      unfold nextRow at hr
      split at hr
      · simp only [Outcome.mk.injEq] at hr
        obtain ⟨_, rfl, _⟩ := hr
        exact absurd hh hs
      · split at hr
        · simp at hr
        · simp only [Outcome.mk.injEq] at hr
          obtain ⟨_, rfl, _⟩ := hr
          exact absurd hh hs
        · split at hr <;> simp at hr
    · next row s1 log1 hr =>
      have hlt := (nextRow_some hr).1
      split at h
      · simp only [Outcome.mk.injEq] at h
        obtain ⟨_, rfl, _⟩ := h
        simp only [pending, dropHead, hs]
        simpa using hlt
      · simp at h

/-- Drops the rows whose key is below a given one. -/
def dropBelow (disk : Disk) (key : RowKey) : Step TableCursor Unit := fun s =>
  match _h : loadHead disk s with
  | ⟨.error e, s', log⟩ => ⟨.error e, s', log⟩
  | ⟨.ok (), s', log⟩ =>
    match _hh : s'.head with
    | none => ⟨.ok (), s', log⟩
    | some (k, _) =>
      if k < key then
        let r := dropBelow disk key s'.dropHead
        ⟨r.result, r.state, log ++ r.log⟩
      else ⟨.ok (), s', log⟩
termination_by s => s.pending disk
decreasing_by exact pending_dropHead_lt _h (by simp [_hh])

end TableCursor

end TableScan
