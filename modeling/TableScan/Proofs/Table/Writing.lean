import TableScan.Table.Writer
import TableScan.Proofs.Attempts
import TableScan.Proofs.Files.Disks
import TableScan.Proofs.Results
import TableScan.Proofs.Table.KeyedRows

/-!
# Runs of a writer

What a table directory holds after a table was created in it (`TableWriter.Created`), and after rows
were appended to it (`TableWriter.appendEach`), some of which may have been refused.

The rows that are stored are given by `TableWriter.storedOf`. Main statements: the row file ends up
as their frames, one behind the other, and nothing else on the disk changes
(`takes_appendEach`, `Created.run_finish`); in a sorted table their keys do not descend
(`ascending_storedOf`).
-/

namespace TableScan

namespace Disk

/-- Two disks differ in the bytes of one file alone. -/
structure SameBut (number : Nat) (disk disk' : Disk) : Prop where
  root : disk'.root = disk.root
  length : disk'.contents.length = disk.contents.length
  bytesOf : ∀ other, other ≠ number → disk'.bytesOf other = disk.bytesOf other

/-- A disk is the same as itself. -/
theorem SameBut.refl (number : Nat) (disk : Disk) : SameBut number disk disk :=
  ⟨rfl, rfl, fun _ _ => rfl⟩

/-- What changes one file alone, twice, changes it alone. -/
theorem SameBut.trans {number : Nat} {a b c : Disk} (hab : SameBut number a b)
    (hbc : SameBut number b c) : SameBut number a c :=
  ⟨hbc.root.trans hab.root, hbc.length.trans hab.length,
    fun other h => (hbc.bytesOf other h).trans (hab.bytesOf other h)⟩

/-- A write changes the bytes of its own file alone. -/
theorem sameBut_writeAt (disk : Disk) (number position : Nat) (bytes : List UInt8) :
    SameBut number disk (disk.writeAt number position bytes) := by
  refine ⟨?_, length_contents_writeAt disk number position bytes, ?_⟩
  · unfold writeAt setBytes
    split <;> rfl
  · intro other h
    unfold writeAt
    split
    · rfl
    · exact bytesOf_setBytes_of_ne h.symm _

/-- Bytes written at the end of a file stand behind those that were there. -/
theorem overlay_length (old new : List UInt8) : overlay old old.length new = old ++ new := by
  simp [overlay]

end Disk

namespace TableWriter

open Disk (SameBut)
open Table (Frame.ofRow)

variable {disk disk' : Disk} {w : TableWriter} {s s' s'' : Disk × TableWriter}

/-! ## Creating -/

/-- What creating a table leaves: the directory has its schema and an empty row file, each in a file
of its own, and the writer is at the start of the row file. -/
structure Created (dir : String) (schema : Schema) (sortColumns : List String) (w : TableWriter)
    (disk : Disk) : Prop where
  sound : disk.IsSound
  schemaFile : ∃ number, number ≠ w.file
    ∧ disk.root.find (Table.schemaPath dir) = .ok (.file number)
    ∧ disk.bytesOf number = Text.utf8Bytes schema.text
  rowFile : disk.root.find (Table.rowFilePath dir) = .ok (.file w.file)
  empty : disk.bytesOf w.file = []
  start : ∃ keys, w = ⟨dir, schema, keys, none, w.file, 0, [], 0⟩
  /-- Without sort columns there are no keys. -/
  unsorted : sortColumns = [] → w.keys = none
  sorted : sortColumns ≠ [] → ∃ order g, SortOrder.ofNames sortColumns schema = .ok order
    ∧ KeyLayout.ofOrder order schema = .ok g ∧ w.keys = some g

/-- The files of a table have names that are good for files. -/
theorem isName_files : Path.IsName ".schema" ∧ Path.IsName ".sortinfo"
    ∧ Path.IsName "records.dat" :=
  ⟨⟨by decide, by decide⟩, ⟨by decide, by decide⟩, ⟨by decide, by decide⟩⟩

/-- A step that makes directories has made them on the disk. -/
theorem run_putDirs {dir : String} {log : List Log.Entry}
    (h : (putDirs dir).run disk = ⟨.ok (), disk', log⟩) : disk.makeDirs dir = (.ok (), disk') := by
  unfold Step.run putDirs at h
  split at h
  · next made hmade =>
    obtain rfl := (Outcome.mk.inj h).2.1
    exact hmade
  · cases (Outcome.mk.inj h).1

/-- A step that writes a text has written it on the disk. -/
theorem run_putText {path text : String} {log : List Log.Entry}
    (h : (putText path text).run disk = ⟨.ok (), disk', log⟩) :
    disk.writeText path text = .ok disk' := by
  unfold Step.run putText at h
  split at h
  · next written hwritten =>
    obtain rfl := (Outcome.mk.inj h).2.1
    exact hwritten
  · cases (Outcome.mk.inj h).1

/-- A step that starts a row file has opened it and emptied it. -/
theorem run_putRows {path : String} {file : Nat} {log : List Log.Entry}
    (h : (putRows path).run disk = ⟨.ok file, disk', log⟩) :
    ∃ opened, disk.openFile path = .ok (file, opened) ∧ disk' = opened.setBytes file [] := by
  unfold Step.run putRows at h
  split at h
  · next number opened hopen =>
    obtain ⟨hfile, rfl, -⟩ := Outcome.mk.inj h
    obtain rfl := Except.ok.inj hfile
    exact ⟨opened, hopen, rfl⟩
  · cases (Outcome.mk.inj h).1

/-- A result that is used is one that answers, and the state is not touched. -/
theorem run_ofResult_eq_ok {σ α : Type} {r : LoadResult α} {s s' : σ} {a : α}
    {log : List Log.Entry} (h : (Step.ofResult r : Step σ α).run s = ⟨.ok a, s', log⟩) :
    r = .ok a ∧ s' = s := by
  rw [Step.run_ofResult] at h
  obtain ⟨hr, hs, -⟩ := Outcome.mk.inj h
  exact ⟨hr, hs.symm⟩

/-- What is done about the sort columns of a new table: nothing if there are none, and otherwise
their names are written down. -/
inductive PutsOrder (dir : String) (schema : Schema) :
    List String → Option KeyLayout → Disk → Disk → Prop where
  | unsorted (disk : Disk) : PutsOrder dir schema [] none disk disk
  | sorted {sortColumns : List String} {order : SortOrder} {g : KeyLayout} {number : Nat}
      {disk disk' : Disk} (hne : sortColumns ≠ [])
      (horder : SortOrder.ofNames sortColumns schema = .ok order)
      (hlayout : KeyLayout.ofOrder order schema = .ok g)
      (hwrites : disk.Writes (Table.sortInfoPath dir) number
        (Text.utf8Bytes (",".intercalate order.names)) disk') :
      PutsOrder dir schema sortColumns (some g) disk disk'

/-- What is done about the sort columns is one of the two, where it succeeds. -/
theorem putsOrder_of_run {dir : String} {schema : Schema} {sortColumns : List String}
    {keys : Option KeyLayout} {log : List Log.Entry} (hsound : disk.IsSound)
    (h : (putSortInfo dir schema sortColumns).run disk = ⟨.ok keys, disk', log⟩) :
    PutsOrder dir schema sortColumns keys disk disk' := by
  obtain ⟨-, hsortName, -⟩ := isName_files
  unfold putSortInfo at h
  by_cases hempty : sortColumns.isEmpty = true
  · rw [if_pos hempty, Step.run_pure] at h
    obtain ⟨hkeys, rfl, -⟩ := Outcome.mk.inj h
    obtain rfl := Except.ok.inj hkeys
    obtain rfl := List.isEmpty_iff.1 hempty
    exact .unsorted disk
  · rw [if_neg hempty] at h
    obtain ⟨order, disk₁, _, _, horder, hafter⟩ := Step.exists_of_run_bind h
    obtain ⟨g, disk₂, _, _, hg, hafter⟩ := Step.exists_of_run_bind hafter
    obtain ⟨_, disk₃, _, _, hput, hafter⟩ := Step.exists_of_run_bind hafter
    rw [Step.run_pure] at hafter
    obtain ⟨hkeys, rfl, -⟩ := Outcome.mk.inj hafter
    obtain ⟨hnames, rfl⟩ := run_ofResult_eq_ok horder
    obtain ⟨hlayout, rfl⟩ := run_ofResult_eq_ok hg
    obtain rfl := Except.ok.inj hkeys
    obtain ⟨number, hwrites⟩ := Disk.writes_of_writeText hsound hsortName (run_putText hput)
    exact .sorted (fun hnil => hempty (List.isEmpty_iff.2 hnil)) hnames hlayout hwrites

/-- Creating a table goes from disk to disk: the directories are made, the schema is written, then
the sort columns, and the row file is emptied. -/
theorem exists_of_create {dir : String} {schema : Schema} {sortColumns : List String}
    {log : List Log.Entry} (hsound : disk.IsSound)
    (h : (create dir schema sortColumns).run disk = ⟨.ok w, disk', log⟩) :
    ∃ made described ordered number keys, disk.makeDirs dir = (.ok (), made)
      ∧ made.Writes (Table.schemaPath dir) number (Text.utf8Bytes schema.text) described
      ∧ PutsOrder dir schema sortColumns keys described ordered
      ∧ ordered.Writes (Table.rowFilePath dir) w.file [] disk'
      ∧ w = ⟨dir, schema, keys, none, w.file, 0, [], 0⟩ := by
  obtain ⟨hschemaName, -, hrowsName⟩ := isName_files
  unfold create at h
  obtain ⟨_, made, _, _, hdirs, h⟩ := Step.exists_of_run_bind h
  obtain ⟨_, described, _, _, hschema, h⟩ := Step.exists_of_run_bind h
  obtain ⟨keys, ordered, _, _, hsort, h⟩ := Step.exists_of_run_bind h
  obtain ⟨file, _, _, _, hrows, h⟩ := Step.exists_of_run_bind h
  rw [Step.run_pure] at h
  obtain ⟨hw, rfl, -⟩ := Outcome.mk.inj h
  obtain rfl := Except.ok.inj hw
  -- from here on each step is told by the disk that it leaves, which is sound if the one before is
  have hmade := run_putDirs hdirs
  have hsoundMade : made.IsSound := by
    have hdirs := hsound.makeDirs dir
    rwa [hmade] at hdirs
  obtain ⟨number, hwrites⟩ := Disk.writes_of_writeText hsoundMade hschemaName (run_putText hschema)
  have hputs := putsOrder_of_run hwrites.sound hsort
  have hsoundOrdered : ordered.IsSound := by
    cases hputs with
    | unsorted => exact hwrites.sound
    | sorted _ _ _ hinfo => exact hinfo.sound
  obtain ⟨opened, hopen, rfl⟩ := run_putRows hrows
  obtain ⟨above, hsegments⟩ := Path.exists_segments_join dir
  have hopens := Disk.openFile_spec hsoundOrdered hrowsName (hsegments _ hrowsName.segment) hopen
  exact ⟨made, described, ordered, number, keys, hmade, hwrites, hputs, hopens.setBytes [], rfl⟩

/-- A table that was created is as `Created` says, on any sound disk. -/
theorem create_spec {dir : String} {schema : Schema} {sortColumns : List String}
    {log : List Log.Entry} (hsound : disk.IsSound)
    (h : (create dir schema sortColumns).run disk = ⟨.ok w, disk', log⟩) :
    Created dir schema sortColumns w disk' := by
  obtain ⟨hschemaName, hsortName, hrowsName⟩ := isName_files
  obtain ⟨made, described, ordered, number, keys, -, hwrites, hputs, hempties, hw⟩ :=
    exists_of_create hsound h
  -- the file of sort columns is another one
  have hkept : ordered.IsSound ∧ ordered.root.find (Table.schemaPath dir) = .ok (.file number)
      ∧ ordered.bytesOf number = Text.utf8Bytes schema.text := by
    cases hputs with
    | unsorted => exact ⟨hwrites.sound, hwrites.found, hwrites.bytesOf_self⟩
    | sorted _ _ _ hinfo =>
      obtain ⟨hfind, hbytes, -⟩ :=
        hinfo.keeps hwrites.sound hsortName hschemaName (by decide) hwrites.found
      exact ⟨hinfo.sound, hfind, hbytes.trans hwrites.bytesOf_self⟩
  obtain ⟨hsoundOrdered, hfindOrdered, hbytesOrdered⟩ := hkept
  -- and so is the row file
  obtain ⟨hfind, hbytes, hne⟩ :=
    hempties.keeps hsoundOrdered hrowsName hschemaName (by decide) hfindOrdered
  have hkeys : w.keys = keys := congrArg TableWriter.keys hw
  refine ⟨hempties.sound, ⟨number, hne, hfind, hbytes.trans hbytesOrdered⟩, hempties.found,
    hempties.bytesOf_self, ⟨keys, hw⟩, ?_, ?_⟩
  · rintro rfl
    cases hputs with
    | unsorted => exact hkeys
    | sorted hne => exact absurd rfl hne
  · intro hne
    cases hputs with
    | unsorted => exact absurd rfl hne
    | sorted _ horder hlayout => exact ⟨_, _, horder, hlayout, hkeys⟩

/-! ## Taking bytes -/

/-- The row file is as long as it was written. -/
def AtEnd (w : TableWriter) (disk : Disk) : Prop :=
  w.file < disk.contents.length ∧ w.position = (disk.bytesOf w.file).length

/-- A new row file is empty, and the writer is at its start. -/
theorem Created.atEnd {dir : String} {schema : Schema} {sortColumns : List String}
    (h : Created dir schema sortColumns w disk) : w.AtEnd disk := by
  obtain ⟨place, -, hplace⟩ := FileTree.at?_of_find h.rowFile
  refine ⟨h.sound.bounded place _ hplace, ?_⟩
  obtain ⟨keys, hw⟩ := h.start
  rw [h.empty, hw]
  rfl

/-- The writer of a new table writes by the schema of the table. -/
theorem Created.schema_eq {dir : String} {schema : Schema} {sortColumns : List String}
    (h : Created dir schema sortColumns w disk) : w.schema = schema := by
  obtain ⟨keys, hw⟩ := h.start
  exact congrArg TableWriter.schema hw

/-- A new table has no rows, neither in its file nor held back. -/
theorem Created.rowBytes_eq {dir : String} {schema : Schema} {sortColumns : List String}
    (h : Created dir schema sortColumns w disk) : w.rowBytes disk = [] := by
  obtain ⟨keys, hw⟩ := h.start
  unfold rowBytes
  rw [h.empty, hw]
  rfl

/-- A writer took bytes: they come behind those that it took before, and all else is as it was. -/
structure Takes (bytes : List UInt8) (s s' : Disk × TableWriter) : Prop where
  atEnd : s'.2.AtEnd s'.1
  rowBytes : s'.2.rowBytes s'.1 = s.2.rowBytes s.1 ++ bytes
  disk : SameBut s.2.file s.1 s'.1
  file : s'.2.file = s.2.file
  schema : s'.2.schema = s.2.schema
  keys : s'.2.keys = s.2.keys

/-- A writer that does nothing takes nothing. -/
theorem Takes.refl (h : s.2.AtEnd s.1) : Takes [] s s :=
  ⟨h, (List.append_nil _).symm, .refl _ _, rfl, rfl, rfl⟩

/-- What is taken later comes behind what is taken before. -/
theorem Takes.trans {bytes bytes' : List UInt8} (h : Takes bytes s s') (h' : Takes bytes' s' s'') :
    Takes (bytes ++ bytes') s s'' where
  atEnd := h'.atEnd
  rowBytes := by rw [h'.rowBytes, h.rowBytes, List.append_assoc]
  disk := h.disk.trans (h.file ▸ h'.disk)
  file := h'.file.trans h.file
  schema := h'.schema.trans h.schema
  keys := h'.keys.trans h.keys

/-- Flushing takes nothing: what was held back stands at the end of the row file now. -/
theorem takes_flush (h : w.AtEnd disk) : Takes [] (disk, w) (w.flush disk) where
  atEnd := by
    -- the row file ends where the writer is, so the bytes are written behind all others
    have hbytes := Disk.bytesOf_writeAt_self h.1 (Nat.le_of_eq h.2) w.held
    refine ⟨?_, ?_⟩
    · simpa [flush] using h.1
    · show w.position + w.held.length
        = ((disk.writeAt w.file w.position w.held).bytesOf w.file).length
      rw [hbytes, h.2, Disk.overlay_length, List.length_append]
  rowBytes := by rw [rowBytes_flush h.1 (Nat.le_of_eq h.2), List.append_nil]
  disk := Disk.sameBut_writeAt disk w.file w.position w.held
  file := rfl
  schema := rfl
  keys := rfl

/-- Bytes that are held back are taken. -/
theorem takes_hold (h : w.AtEnd disk) (bytes : List UInt8) :
    Takes bytes (disk, w) (disk, { w with held := w.held ++ bytes }) where
  atEnd := h
  rowBytes := by
    show _ ++ (w.held ++ bytes) = (_ ++ w.held) ++ bytes
    rw [List.append_assoc]
  disk := .refl _ _
  file := rfl
  schema := rfl
  keys := rfl

/-- Bytes that a writer is given are taken, whether they are held back or written. -/
theorem takes_put (h : w.AtEnd disk) (bytes : List UInt8) :
    Takes bytes (disk, w) (w.put bytes disk) := by
  unfold put
  split
  · exact takes_hold h bytes
  · have hflush := takes_flush h
    -- there is no room: what is held back is written, and then the bytes may be held back or
    -- written too
    have hheld := hflush.trans (takes_hold hflush.atEnd bytes)
    split
    · exact hheld
    · have hall := hheld.trans (takes_flush hheld.atEnd)
      rw [List.append_nil] at hall
      exact hall

/-- Taking bytes changes what is held back, and how much is written. -/
theorem put_eq (w : TableWriter) (bytes : List UInt8) (disk : Disk) :
    ∃ position held, (w.put bytes disk).2 = { w with position := position, held := held } := by
  unfold put
  split
  · exact ⟨w.position, _, rfl⟩
  · split
    · exact ⟨_, _, rfl⟩
    · exact ⟨_, _, rfl⟩

/-- Taking bytes does not change the last key. -/
@[simp] theorem lastKey_put (w : TableWriter) (bytes : List UInt8) (disk : Disk) :
    (w.put bytes disk).2.lastKey = w.lastKey := by
  obtain ⟨position, held, hput⟩ := put_eq w bytes disk
  rw [hput]

/-- Taking bytes does not change the number of rows. -/
@[simp] theorem rows_put (w : TableWriter) (bytes : List UInt8) (disk : Disk) :
    (w.put bytes disk).2.rows = w.rows := by
  obtain ⟨position, held, hput⟩ := put_eq w bytes disk
  rw [hput]

/-- What was taken is in the row file when the writer is finished. -/
theorem bytesOf_finish (h : w.AtEnd disk) :
    ((finish w).run disk).state.bytesOf w.file = w.rowBytes disk
      ∧ SameBut w.file disk ((finish w).run disk).state := by
  have hflush := takes_flush h
  refine ⟨?_, hflush.disk⟩
  have hbytes := hflush.rowBytes
  rw [List.append_nil, rowBytes, hflush.atEnd.2, List.take_length] at hbytes
  show (w.flush disk).1.bytesOf w.file = w.rowBytes disk
  rw [← hbytes]
  exact (List.append_nil _).symm

/-! ## Appending rows -/

/-- A row is taken as it decodes, with the key that comes next. -/
theorem accepted_eq_ok_iff {row stored : Record} {key : Option RowKey} :
    w.accepted row = .ok (stored, key) ↔
      Record.ofJson w.schema row.toJson = .ok stored ∧ w.nextKey stored = .ok key := by
  unfold accepted
  constructor
  · intro h
    obtain ⟨own, hown, h⟩ := Results.bind_eq_ok_iff.1 h
    obtain ⟨key', hkey, h⟩ := Results.bind_eq_ok_iff.1 h
    obtain ⟨rfl, rfl⟩ := Prod.mk.inj (Except.ok.inj h)
    exact ⟨hown, hkey⟩
  · rintro ⟨hstored, hkey⟩
    exact Results.bind_eq_ok_iff.2 ⟨stored, hstored, Results.bind_eq_ok_iff.2 ⟨key, hkey, rfl⟩⟩

/-- In a sorted table a row is taken with its key, which is not below the last one. -/
theorem exists_key_of_nextKey {g : KeyLayout} {stored : Record} {key : Option RowKey}
    (hkeys : w.keys = some g) (h : w.nextKey stored = .ok key) :
    ∃ k, g.keyOfRecord stored = .ok k ∧ key = some k ∧ ∀ last ∈ w.lastKey, ¬ k < last := by
  unfold nextKey at h
  rw [hkeys] at h
  obtain ⟨k, hk, h⟩ := Results.bind_eq_ok_iff.1 h
  split at h
  · cases h
  · next hnot =>
    refine ⟨k, hk, (Except.ok.inj h).symm, fun last hlast hlt => hnot ?_⟩
    rw [show w.lastKey = some last from hlast]
    exact decide_eq_true hlt

/-- A row that is refused changes nothing. -/
theorem run_append_of_error {row : Record} {e : LoadError} (h : s.2.accepted row = .error e) :
    (append row).run s = ⟨.error e, s, []⟩ := by
  obtain ⟨disk, w⟩ := s
  unfold Step.run append
  simp only [h]

/-- A row that is taken is counted, its key is the last one, and its frame goes to the row file. -/
theorem run_append_of_ok {row stored : Record} {key : Option RowKey}
    (h : s.2.accepted row = .ok (stored, key)) :
    (append row).run s
      = ⟨.ok (), { s.2 with lastKey := key, rows := s.2.rows + 1 }.put (Frame.ofRow stored) s.1,
        []⟩ := by
  obtain ⟨disk, w⟩ := s
  unfold Step.run append
  simp only [h]

/-- Appends rows one after another, those behind a refused one as well. -/
def appendEach (rows : List Record) (s : Disk × TableWriter) :
    List (LoadResult Unit) × (Disk × TableWriter) :=
  Step.runEach append rows s

/-- Of rows that are appended one after another those that are taken, as they are stored. -/
def storedOf : List Record → Disk × TableWriter → List Record
  | [], _ => []
  | row :: rows, s =>
    let stored := match s.2.accepted row with
      | .ok (stored, _) => [stored]
      | .error _ => []
    stored ++ storedOf rows ((append row).run s).state

/-- A row that is refused is not stored. -/
theorem storedOf_cons_of_error {row : Record} {e : LoadError} (h : s.2.accepted row = .error e)
    (rows : List Record) : storedOf (row :: rows) s = storedOf rows s := by
  rw [storedOf, h, run_append_of_error h]
  rfl

/-- A row that is taken is stored before those behind it. -/
theorem storedOf_cons_of_ok {row stored : Record} {key : Option RowKey}
    (h : s.2.accepted row = .ok (stored, key)) (rows : List Record) :
    storedOf (row :: rows) s = stored :: storedOf rows ((append row).run s).state := by
  rw [storedOf, h]
  rfl

/-- A row that is taken comes as its frame. -/
theorem takes_append {row stored : Record} {key : Option RowKey} (hend : s.2.AtEnd s.1)
    (h : s.2.accepted row = .ok (stored, key)) :
    Takes (Frame.ofRow stored) s ((append row).run s).state := by
  rw [run_append_of_ok h]
  have hput := takes_put (w := { s.2 with lastKey := key, rows := s.2.rows + 1 }) hend
    (Frame.ofRow stored)
  exact ⟨hput.atEnd, hput.rowBytes, hput.disk, hput.file, hput.schema, hput.keys⟩

/-- The frames of the rows that are stored come behind what was taken before. -/
theorem takes_appendEach (hend : s.2.AtEnd s.1) (rows : List Record) :
    Takes ((storedOf rows s).flatMap Frame.ofRow) s (appendEach rows s).2 := by
  induction rows generalizing s with
  | nil => exact .refl hend
  | cons row rows ih =>
    show Takes _ s (appendEach rows ((append row).run s).state).2
    -- a refused row leaves the writer as it was
    cases haccepted : s.2.accepted row with
    | error e =>
      rw [storedOf_cons_of_error haccepted, run_append_of_error haccepted]
      exact ih hend
    | ok r =>
      obtain ⟨stored, key⟩ := r
      have htakes := takes_append hend haccepted
      rw [storedOf_cons_of_ok haccepted, List.flatMap_cons]
      exact htakes.trans (ih htakes.atEnd)

/-- The rows that are stored are counted. -/
theorem rows_appendEach (rows : List Record) :
    (appendEach rows s).2.2.rows = s.2.rows + (storedOf rows s).length := by
  induction rows generalizing s with
  | nil => rfl
  | cons row rows ih =>
    show (appendEach rows ((append row).run s).state).2.2.rows = _
    rw [ih]
    cases haccepted : s.2.accepted row with
    | error e => rw [storedOf_cons_of_error haccepted, run_append_of_error haccepted]
    | ok r =>
      obtain ⟨stored, key⟩ := r
      rw [storedOf_cons_of_ok haccepted, run_append_of_ok haccepted, rows_put, List.length_cons]
      exact Nat.succ_add_eq_add_succ s.2.rows _

/-- When rows were appended to a new table, the writer can be finished. It tells their number, the
row file is their frames, and all else is as it was after the table was created. -/
theorem Created.run_finish {dir : String} {schema : Schema} {sortColumns : List String}
    (h : Created dir schema sortColumns w disk) (rows : List Record) :
    ∃ disk', (finish (appendEach rows (disk, w)).2.2).run (appendEach rows (disk, w)).2.1
        = ⟨.ok (storedOf rows (disk, w)).length, disk', []⟩
      ∧ disk'.bytesOf w.file = (storedOf rows (disk, w)).flatMap Frame.ofRow
      ∧ SameBut w.file disk disk' := by
  have htakes := takes_appendEach (s := (disk, w)) h.atEnd rows
  obtain ⟨hbytes, hflushed⟩ := bytesOf_finish htakes.atEnd
  rw [htakes.rowBytes, h.rowBytes_eq, List.nil_append, htakes.file] at hbytes
  have hcount : (appendEach rows (disk, w)).2.2.rows = (storedOf rows (disk, w)).length := by
    obtain ⟨keys, hw⟩ := h.start
    have hnone : w.rows = 0 := congrArg TableWriter.rows hw
    rw [rows_appendEach, hnone, Nat.zero_add]
  refine ⟨_, ?_, hbytes, htakes.disk.trans (htakes.file ▸ hflushed)⟩
  rw [← hcount]
  rfl

/-- Rows that are all taken are stored as the schema decodes them. -/
theorem forall₂_storedOf {rows : List Record} (hend : s.2.AtEnd s.1)
    (h : ∀ result ∈ (appendEach rows s).1, result = .ok ()) :
    List.Forall₂ (fun row stored => Record.ofJson s.2.schema row.toJson = .ok stored) rows
      (storedOf rows s) := by
  induction rows generalizing s with
  | nil => exact .nil
  | cons row rows ih =>
    obtain ⟨hfirst, hrest⟩ := List.forall_mem_cons.1 h
    cases haccepted : s.2.accepted row with
    | error e =>
      -- the row would have been refused, and all are taken
      rw [run_append_of_error haccepted] at hfirst
      cases hfirst
    | ok r =>
      obtain ⟨stored, key⟩ := r
      have htakes := takes_append hend haccepted
      have hothers := ih htakes.atEnd hrest
      rw [htakes.schema] at hothers
      rw [storedOf_cons_of_ok haccepted]
      exact .cons (accepted_eq_ok_iff.1 haccepted).1 hothers

/-- Every row that is stored was decoded by the schema. -/
theorem exists_ofJson_of_mem_storedOf {rows : List Record} {stored : Record}
    (hend : s.2.AtEnd s.1) (h : stored ∈ storedOf rows s) :
    ∃ row ∈ rows, Record.ofJson s.2.schema row.toJson = .ok stored := by
  induction rows generalizing s with
  | nil => cases h
  | cons row rows ih =>
    cases haccepted : s.2.accepted row with
    | error e =>
      rw [storedOf_cons_of_error haccepted] at h
      obtain ⟨row', hrow', hstored⟩ := ih hend h
      exact ⟨row', List.mem_cons_of_mem _ hrow', hstored⟩
    | ok r =>
      obtain ⟨own, key⟩ := r
      have htakes := takes_append hend haccepted
      rw [storedOf_cons_of_ok haccepted] at h
      rcases List.mem_cons.1 h with rfl | h
      · exact ⟨row, List.mem_cons_self, (accepted_eq_ok_iff.1 haccepted).1⟩
      · obtain ⟨row', hrow', hstored⟩ := ih htakes.atEnd h
        rw [htakes.schema] at hstored
        exact ⟨row', List.mem_cons_of_mem _ hrow', hstored⟩

/-- A table without an order takes every row that its schema decodes. -/
theorem results_of_unsorted {rows : List Record} (hkeys : s.2.keys = none) (hend : s.2.AtEnd s.1)
    (h : ∀ row ∈ rows, ∃ stored, Record.ofJson s.2.schema row.toJson = .ok stored) :
    ∀ result ∈ (appendEach rows s).1, result = .ok () := by
  induction rows generalizing s with
  | nil => exact fun result hresult => absurd hresult List.not_mem_nil
  | cons row rows ih =>
    obtain ⟨⟨stored, hstored⟩, hrest⟩ := List.forall_mem_cons.1 h
    -- without keys there is nothing to be out of order
    have hkey : s.2.nextKey stored = .ok none := by
      unfold nextKey
      rw [hkeys]
    have haccepted := accepted_eq_ok_iff.2 ⟨hstored, hkey⟩
    have htakes := takes_append hend haccepted
    refine List.forall_mem_cons.2 ⟨?_, ih (htakes.keys.trans hkeys) htakes.atEnd ?_⟩
    · rw [run_append_of_ok haccepted]
    · rw [htakes.schema]
      exact hrest

/-- The keys of the rows that are stored do not descend, and none is below the last one before. -/
theorem ascending_storedOf {g : KeyLayout} (hkeys : s.2.keys = some g) (hend : s.2.AtEnd s.1)
    (rows : List Record) :
    ∃ keys, List.Forall₂ (fun stored k => g.keyOfRecord stored = .ok k) (storedOf rows s) keys
      ∧ (∀ last ∈ s.2.lastKey, ∀ k ∈ keys, ¬ k < last) ∧ keys.Pairwise fun a b => ¬ b < a := by
  -- on the rows: the last key of the writer is the one that the next row is compared with
  induction rows generalizing s with
  | nil => exact ⟨[], .nil, fun _ _ k hk => absurd hk List.not_mem_nil, .nil⟩
  | cons row rows ih =>
    cases haccepted : s.2.accepted row with
    | error e =>
      rw [storedOf_cons_of_error haccepted]
      exact ih hkeys hend
    | ok r =>
      obtain ⟨stored, key⟩ := r
      obtain ⟨k, hk, rfl, hlast⟩ :=
        exists_key_of_nextKey hkeys (accepted_eq_ok_iff.1 haccepted).2
      have htakes := takes_append hend haccepted
      obtain ⟨keys, hstored, habove, hpairwise⟩ := ih (htakes.keys.trans hkeys) htakes.atEnd
      -- the key of this row is the last one from now on
      have hnow : k ∈ ((append row).run s).state.2.lastKey := by
        rw [run_append_of_ok haccepted, lastKey_put]
        rfl
      rw [storedOf_cons_of_ok haccepted]
      refine ⟨k :: keys, .cons hk hstored, ?_, List.pairwise_cons.2 ⟨habove k hnow, hpairwise⟩⟩
      intro last hmem k' hk'
      rcases List.mem_cons.1 hk' with rfl | hk'
      · exact hlast last hmem
      · exact RowKey.not_lt_trans (hlast last hmem) (habove k hnow k' hk')

/-- A row that is not below the last one is taken with its key. -/
theorem nextKey_of_not_lt {g : KeyLayout} {stored : Record} {k : RowKey} (hkeys : w.keys = some g)
    (hk : g.keyOfRecord stored = .ok k) (hlast : ∀ last ∈ w.lastKey, ¬ k < last) :
    w.nextKey stored = .ok (some k) := by
  have hnot : ¬ w.lastKey.any (k < ·) = true := by
    cases hl : w.lastKey with
    | none => exact Bool.false_ne_true
    | some last => exact fun hlt => hlast last hl (of_decide_eq_true hlt)
  unfold nextKey
  rw [hkeys]
  refine Results.bind_eq_ok_iff.2 ⟨k, hk, ?_⟩
  rw [if_neg hnot]

/-- Rows that the schema decodes are all taken if they come in the order of their keys. -/
theorem storedOf_of_ascending {schema : Schema} {g : KeyLayout} {rows stored : List Record}
    {keys : List RowKey} (hschema : s.2.schema = schema) (hkeys : s.2.keys = some g)
    (hend : s.2.AtEnd s.1)
    (hdecoded : List.Forall₂ (fun row own => Record.ofJson schema row.toJson = .ok own) rows stored)
    (hkeyed : List.Forall₂ (fun own k => g.keyOfRecord own = .ok k) stored keys)
    (hlast : ∀ last ∈ s.2.lastKey, ∀ k ∈ keys, ¬ k < last)
    (hpairwise : keys.Pairwise fun a b => ¬ b < a) :
    storedOf rows s = stored ∧ (appendEach rows s).1 = rows.map fun _ => .ok () := by
  induction hdecoded generalizing s keys with
  | nil => exact ⟨rfl, rfl⟩
  | @cons row own rows stored hrow hrows ih =>
    cases hkeyed with
    | @cons _ k _ keys hk hkeyed =>
      obtain ⟨hbelow, hpairwise⟩ := List.pairwise_cons.1 hpairwise
      have hkey : s.2.nextKey own = .ok (some k) :=
        nextKey_of_not_lt hkeys hk fun last hmem => hlast last hmem k List.mem_cons_self
      have haccepted := accepted_eq_ok_iff.2 ⟨hschema.symm ▸ hrow, hkey⟩
      have htakes := takes_append hend haccepted
      -- the key of this row is the last one now, and no later one is below it
      have hnow : ∀ last ∈ ((append row).run s).state.2.lastKey, ∀ k' ∈ keys, ¬ k' < last := by
        rw [run_append_of_ok haccepted, lastKey_put]
        intro last hmem
        obtain rfl := Option.some.inj hmem
        exact hbelow
      obtain ⟨hstored, hresults⟩ := ih (htakes.schema.trans hschema) (htakes.keys.trans hkeys)
        htakes.atEnd hkeyed hnow hpairwise
      refine ⟨?_, ?_⟩
      · rw [storedOf_cons_of_ok haccepted, hstored]
      · show ((append row).run s).result
            :: (appendEach rows ((append row).run s).state).1 = _
        rw [hresults, run_append_of_ok haccepted]
        rfl

end TableWriter

end TableScan
