import TableScan.Proofs.Reader.TypedRecords
import TableScan.Proofs.Table.RefusedRows
import TableScan.Proofs.Table.Salvage

/-!
# Rows are never without a key

A row that decodes is typed by its schema, and a typed row has a key by every order that the schema
can be sorted by. The writer of a sorted table and the readers that merge such tables make keys of
nothing but rows that they have decoded, so neither of them ever fails for want of a key.

`TableCursor.KeysRows` is what a cursor of a merge keeps: the rows of its table have keys. Under it
every call fails by the files or not at all (`Step.FailsByFiles`).

Main statement: decoded rows are typed and have keys, a writer refuses rows that do not decode or
that are out of order, and a merge fails by the files alone (`Record.keyed_of_ofJson`).
-/

namespace TableScan

namespace Step

variable {σ α β : Type} {P : σ → Prop}

/-- A step that starts where `P` holds ends where `P` holds, and where it fails this is a failure of
the files. -/
def FailsByFiles (P : σ → Prop) (step : Step σ α) : Prop :=
  ∀ s, P s → P (step.run s).state
    ∧ ∀ e, (step.run s).result = .error e → ∃ fault, e = .io fault

theorem FailsByFiles.of_eq {step : Step σ α} {s s' : σ} {result : LoadResult α}
    {log : List Log.Entry} (h : step.FailsByFiles P) (hs : P s)
    (hrun : step s = ⟨result, s', log⟩) :
    P s' ∧ ∀ e, result = .error e → ∃ fault, e = .io fault := by
  have hstep := h s hs
  unfold run at hstep
  rwa [hrun] at hstep

/-- Steps in a row fail by the files if each of them does. -/
theorem FailsByFiles.bind {step : Step σ α} {next : α → Step σ β} (h : step.FailsByFiles P)
    (hnext : ∀ a, (next a).FailsByFiles P) : (step >>= next).FailsByFiles P := by
  intro s hs
  rcases hrun : step.run s with ⟨result, s', log⟩
  obtain ⟨hs', hfiles⟩ := h.of_eq hs hrun
  cases result with
  | error cause =>
    rw [run_bind_error hrun]
    exact ⟨hs', fun e he => hfiles e (congrArg _ (Except.error.inj he))⟩
  | ok a =>
    rw [run_bind_ok hrun]
    exact hnext a s' hs'

theorem FailsByFiles.pure (a : α) : (Pure.pure a : Step σ α).FailsByFiles P :=
  fun _ hs => ⟨hs, fun _ he => by cases he⟩

end Step

/-! ## Cursors -/

/-- Reading a frame fails by the file alone. -/
theorem RowFile.next_eq_error {disk : Disk} {file file' : RowFile} {e : LoadError}
    {log : List Log.Entry} (h : next disk file = ⟨.error e, file', log⟩) :
    ∃ fault, e = .io fault := by
  -- a file that was not found, or a frame that cannot be read
  cases hnumber : file.number with
  | none =>
    unfold next at h
    rw [hnumber] at h
    exact ⟨_, (Except.error.inj (Outcome.mk.inj h).1).symm⟩
  | some number =>
    have htaking := taking_readFrame (disk.bytesOf number) file
    rw [← next_eq_readFrame hnumber, h] at htaking
    cases htaking with
    | failed => exact ⟨_, rfl⟩

namespace TableCursor

variable {disk : Disk} {s s' : TableCursor} {e : LoadError} {log : List Log.Entry}

/-- The rows of the table have keys. -/
def KeysRows (s : TableCursor) : Prop :=
  ∀ payload row, Record.ofJson s.table.schema payload = .ok row → ∃ key, s.keyOf row = .ok key

/-- Keys are laid out by what a cursor never changes. -/
theorem KeysRows.of_sameView (h : s.KeysRows) (hsame : SameView s s') : s'.KeysRows := by
  unfold KeysRows
  rw [hsame.table, keyOf_of_sameView hsame]
  exact h

/-- A cursor that is opened for a merge lays out keys of the rows of its own table. -/
theorem keysRows_of_openTable {p : Projection} {order : SortOrder} {t : Table}
    (h : openTable disk p (some order) t = .ok s) : s.KeysRows := by
  obtain ⟨keys, file, hkeys, -, rfl⟩ := openTable_eq_ok_iff.1 h
  obtain ⟨g, hg, rfl⟩ := Results.map_eq_ok_iff.1 hkeys
  exact fun payload row hrow => KeyLayout.exists_keyOfRecord hg hrow

/-- A row that does not decode is a failure of its file too. -/
theorem nextRow_eq_error (h : nextRow disk s = ⟨.error e, s', log⟩) : ∃ fault, e = .io fault := by
  unfold nextRow at h
  split at h
  · cases h
  · split at h
    · next hnext =>
      obtain rfl := Except.error.inj (Outcome.mk.inj h).1
      exact RowFile.next_eq_error hnext
    · cases h
    · unfold rowOf at h
      split at h
      · cases h
      · next hrow =>
        split at hrow
        · cases hrow
        · obtain rfl := Except.error.inj (Outcome.mk.inj h).1
          exact ⟨_, (Except.error.inj hrow).symm⟩

/-- Showing a head fails by the files alone: the key of a decoded row never fails. -/
theorem failsByFiles_loadHead (disk : Disk) : (loadHead disk).FailsByFiles KeysRows := by
  intro s hs
  have hsame := sameView_nextRow disk s
  unfold Step.run loadHead
  split
  · exact ⟨hs, fun e he => by cases he⟩
  · rcases hnext : nextRow disk s with ⟨result, s', log⟩
    rw [hnext] at hsame
    have hs' := hs.of_sameView hsame
    cases result with
    | error cause =>
      refine ⟨hs', fun e he => ?_⟩
      obtain rfl := Except.error.inj he
      exact nextRow_eq_error hnext
    | ok found =>
      cases found with
      | none => exact ⟨hs', fun e he => by cases he⟩
      | some row =>
        -- the row that was read was decoded, so it has a key
        obtain ⟨payload, hdecoded⟩ := exists_ofJson_of_nextRow hnext
        obtain ⟨key, hkey⟩ := hs payload row hdecoded
        rw [← keyOf_of_sameView hsame] at hkey
        dsimp only
        rw [hkey]
        exact ⟨hs', fun e he => by cases he⟩

/-- So does dropping all heads below a key. -/
theorem failsByFiles_dropBelow (disk : Disk) (key : RowKey) :
    (dropBelow disk key).FailsByFiles KeysRows := by
  intro s hs
  show (dropBelow disk key s).state.KeysRows
    ∧ ∀ e, (dropBelow disk key s).result = .error e → ∃ fault, e = .io fault
  -- along the heads that are dropped
  fun_induction dropBelow disk key s with
  | case1 s cause s' log hload => exact (failsByFiles_loadHead disk).of_eq hs hload
  | case2 s s' log hload => exact (failsByFiles_loadHead disk).of_eq hs hload
  | case3 s s' log hload k row hhead hlt r ih =>
    have hs' := ((failsByFiles_loadHead disk).of_eq hs hload).1
    exact ih hs'
  | case4 s s' log hload => exact (failsByFiles_loadHead disk).of_eq hs hload

end TableCursor

/-! ## Readers -/

namespace TableReader

open TableCursor (KeysRows)

variable {disk : Disk}

/-- A step that fails by the files alone does so for any number of cursors. -/
theorem failsByFiles_forCursors {P : TableCursor → Prop} {step : Step TableCursor Unit}
    (h : step.FailsByFiles P) :
    (forCursors step).FailsByFiles fun cursors => ∀ s ∈ cursors, P s := by
  intro cursors hcursors
  unfold Step.run
  induction cursors with
  | nil => exact ⟨hcursors, fun e he => by cases he⟩
  | cons s rest ih =>
    obtain ⟨hs, hrest⟩ := List.forall_mem_cons.1 hcursors
    unfold forCursors
    rcases hrun : step s with ⟨result, s', log⟩
    obtain ⟨hs', hfiles⟩ := h.of_eq hs hrun
    cases result with
    | error cause => exact ⟨List.forall_mem_cons.2 ⟨hs', hrest⟩, hfiles⟩
    | ok _ =>
      obtain ⟨hrest', hfiles'⟩ := ih hrest
      exact ⟨List.forall_mem_cons.2 ⟨hs', hrest'⟩, hfiles'⟩

/-- Taking a head leaves the tables as they are. -/
theorem keysRows_takeKey (key : RowKey) {cursors : List TableCursor}
    (h : ∀ s ∈ cursors, s.KeysRows) : ∀ s ∈ (takeKey key cursors).2, s.KeysRows := by
  induction cursors with
  | nil => exact h
  | cons s rest ih =>
    obtain ⟨hs, hrest⟩ := List.forall_mem_cons.1 h
    unfold takeKey
    split
    · split
      · exact List.forall_mem_cons.2 ⟨hs, hrest⟩
      · exact List.forall_mem_cons.2 ⟨hs, ih hrest⟩
    · exact List.forall_mem_cons.2 ⟨hs, ih hrest⟩

/-- A merge fails where a head cannot be shown. -/
theorem failsByFiles_nextMerged (disk : Disk) :
    (nextMerged disk).FailsByFiles fun cursors => ∀ s ∈ cursors, s.KeysRows := by
  intro cursors hcursors
  have hloads := failsByFiles_forCursors (TableCursor.failsByFiles_loadHead disk)
  unfold Step.run
  rcases hrun : forCursors (TableCursor.loadHead disk) cursors with ⟨result, cursors', log⟩
  obtain ⟨hcursors', hfiles⟩ := hloads.of_eq hcursors hrun
  cases result with
  | error cause =>
    rw [nextMerged_of_failed hrun]
    exact ⟨hcursors', fun e he => hfiles e (congrArg _ (Except.error.inj he))⟩
  | ok _ =>
    obtain ⟨hresult, hstate⟩ := nextMerged_of_shown hrun
    rw [hresult, hstate]
    -- taking the least head does not fail
    refine ⟨?_, fun e he => by cases he⟩
    unfold takeLeast
    cases leastKey cursors' with
    | none => exact hcursors'
    | some key => exact keysRows_takeKey key hcursors'

/-- A reader that merges rows that have keys. -/
structure IsMerge (r : TableReader) : Prop where
  sorted : r.sorted = true
  cursors : ∀ s ∈ r.cursors, s.KeysRows

/-- Tables that are opened with an order are merged. -/
theorem isMerge_of_ofTables {tables : List Table} {order : SortOrder} {text : String}
    {r : TableReader} (h : ofTables disk tables (some order) text = .ok r) : r.IsMerge := by
  obtain ⟨logical, p, cursors, -, -, hcursors, rfl⟩ := ofTables_eq_ok_iff.1 h
  refine ⟨rfl, fun s hs => ?_⟩
  obtain ⟨t, -, hopened⟩ :=
    Results.exists_mem_of_forall₂ (Results.mapM_eq_ok_iff.1 hcursors) hs
  exact TableCursor.keysRows_of_openTable hopened

theorem failsByFiles_next (disk : Disk) : (next disk).FailsByFiles IsMerge := by
  intro r hr
  rw [run_next_of_sorted disk hr.sorted]
  obtain ⟨hcursors, hfiles⟩ := failsByFiles_nextMerged disk r.cursors hr.cursors
  exact ⟨⟨hr.sorted, hcursors⟩, hfiles⟩

theorem failsByFiles_seekTo (disk : Disk) (key : RowKey) :
    (seekTo disk key).FailsByFiles IsMerge := by
  intro r hr
  rw [run_seekTo_of_sorted disk key hr.sorted]
  have hdrop := failsByFiles_forCursors (TableCursor.failsByFiles_dropBelow disk key)
  obtain ⟨hcursors, hfiles⟩ := hdrop r.cursors hr.cursors
  exact ⟨⟨hr.sorted, hcursors⟩, hfiles⟩

/-- Every call of a merge fails by the files alone. -/
theorem failsByFiles_perform (disk : Disk) (call : ReaderCall) :
    (RecordReader.perform disk call).FailsByFiles IsMerge := by
  cases call with
  | next => exact failsByFiles_next disk
  | seek key => exact (failsByFiles_seekTo disk key).bind fun _ => .pure none

/-- The reader behind calls, each of which finds a disk of its own. -/
def behind (r : TableReader) (calls : List (Disk × ReaderCall)) : TableReader :=
  calls.foldl (fun r c => ((RecordReader.perform c.1 c.2).run r).state) r

/-- A merging reader stays one through all calls. -/
theorem IsMerge.behind {r : TableReader} (h : r.IsMerge) (calls : List (Disk × ReaderCall)) :
    (r.behind calls).IsMerge :=
  List.foldlRecOn calls _ h fun r hr c _ => (failsByFiles_perform c.1 c.2 r hr).1

end TableReader

/-! ## Writers -/

namespace TableWriter

/-- A new writer of a sorted table lays out keys of the rows of its schema. -/
theorem hasStored_of_create {disk disk₁ : Disk} {dir : String} {schema : Schema}
    {sortColumns : List String} {w : TableWriter} {log : List Log.Entry}
    (h : (create dir schema sortColumns).run disk = ⟨.ok w, disk₁, log⟩) :
    HasStored dir schema sortColumns [] w := by
  -- the steps of creating a table: its directory, its schema, its order, its row file
  obtain ⟨_, made, _, _, -, h⟩ := Step.exists_of_run_bind h
  obtain ⟨_, described, _, _, -, h⟩ := Step.exists_of_run_bind h
  obtain ⟨keys, ordered, _, _, hsort, h⟩ := Step.exists_of_run_bind h
  obtain ⟨file, _, _, _, -, h⟩ := Step.exists_of_run_bind h
  rw [Step.run_pure] at h
  obtain rfl := Except.ok.inj (Outcome.mk.inj h).1
  unfold putSortInfo at hsort
  -- without sort columns there is no layout to keep, with some it is that of their order
  by_cases hempty : sortColumns.isEmpty = true
  · rw [if_pos hempty, Step.run_pure] at hsort
    obtain rfl := Except.ok.inj (Outcome.mk.inj hsort).1
    exact ⟨rfl, rfl, rfl, fun _ => rfl, fun hne => absurd (List.isEmpty_iff.1 hempty) hne⟩
  · rw [if_neg hempty] at hsort
    obtain ⟨order, _, _, _, horder, hsort⟩ := Step.exists_of_run_bind hsort
    obtain ⟨g, _, _, _, hg, hsort⟩ := Step.exists_of_run_bind hsort
    obtain ⟨_, _, _, _, -, hsort⟩ := Step.exists_of_run_bind hsort
    rw [Step.run_pure] at hsort
    obtain rfl := Except.ok.inj (Outcome.mk.inj hsort).1
    exact ⟨rfl, rfl, rfl, fun hnil => absurd (List.isEmpty_iff.2 hnil) hempty, fun _ =>
      ⟨order, g, (run_ofResult_eq_ok horder).1, (run_ofResult_eq_ok hg).1, rfl, rfl⟩⟩

end TableWriter

/-! ## Decoded rows -/

/-- What decodes by a schema has one field for each column, which is null or a value of the type of
the column, at any depth. Where names of its columns give an order that tuples can be sorted by, the
order lays out keys of the schema's rows too, and every decoded row has one. So a writer refuses a
row because it does not decode or because it is out of order, and a merge of tables fails by their
files alone, whatever is called of it and whatever becomes of the files meanwhile. -/
theorem Record.keyed_of_ofJson :
    (∀ (schema : Schema) (j : Json) (row : Record), Record.ofJson schema j = .ok row →
        row.HasTypes schema.columns)
      ∧ (∀ (schema : Schema) (names : List String) (order : SortOrder) (tuples : KeyLayout),
          SortOrder.ofNames names schema = .ok order → KeyLayout.forTuples order = .ok tuples →
          ∃ g, KeyLayout.ofOrder order schema = .ok g
            ∧ ∀ (j : Json) (row : Record), Record.ofJson schema j = .ok row →
              ∃ key, g.keyOfRecord row = .ok key)
      ∧ (∀ (disk disk₁ : Disk) (dir : String) (schema : Schema) (sortColumns : List String)
          (w : TableWriter) (log : List Log.Entry),
          (TableWriter.create dir schema sortColumns).run disk = ⟨.ok w, disk₁, log⟩ →
          ∀ (before : List Record) (row : Record) (e : LoadError),
            ((TableWriter.append row).run
              (TableWriter.appendEach before (disk₁, w)).2).result = .error e →
            Record.ofJson schema row.toJson = .error e
              ∨ ∃ count, e = .configuration (.rowOutOfOrder count dir))
      ∧ ∀ (disk : Disk) (tables : List Table) (order : SortOrder) (text : String)
          (r : TableReader), TableReader.ofTables disk tables (some order) text = .ok r →
          ∀ (calls : List (Disk × ReaderCall)) (disk' : Disk) (call : ReaderCall) (e : LoadError),
            ((RecordReader.perform disk' call).run (r.behind calls)).result = .error e →
            ∃ fault, e = .io fault := by
  refine ⟨fun schema j row => Record.hasTypes_of_ofJson, ?_, ?_, ?_⟩
  · intro schema names order tuples horder htuples
    obtain ⟨g, hg⟩ := KeyLayout.exists_ofOrder_of_ofNames horder htuples
    exact ⟨g, hg, fun j row => KeyLayout.exists_keyOfRecord hg⟩
  · intro disk disk₁ dir schema sortColumns w log hcreate before row e he
    have hnew : TableWriter.HasStored dir schema sortColumns [] (disk₁, w).2 :=
      TableWriter.hasStored_of_create hcreate
    rcases (hnew.appendEach before).append_eq_error he with hdecode | hlate
    · exact .inl hdecode
    · exact .inr ⟨_, hlate⟩
  · intro disk tables order text r hopen calls disk' call e he
    have hmerge := (TableReader.isMerge_of_ofTables hopen).behind calls
    exact (TableReader.failsByFiles_perform disk' call _ hmerge).2 e he

open TableWriter (numbers numbersDisk)

/-- A table of numbers that is sorted by them: a number has a key, the writer of the table refuses
the smaller one of two behind the greater one, and a merge of the table fails by its files alone. -/
theorem Record.keyed_of_ofJson_numbers :
    ∃ w g key r, (TableWriter.create "t" numbers ["id"]).run Disk.empty = ⟨.ok w, numbersDisk, []⟩
      ∧ KeyLayout.ofOrder ⟨numbers⟩ numbers = .ok g ∧ g.keyOfRecord [.int 5] = .ok key
      ∧ (∀ e, ((TableWriter.append [.int 1]).run
          (TableWriter.appendEach [[.int 2]] (numbersDisk, w)).2).result = .error e →
        ∃ count, e = .configuration (.rowOutOfOrder count "t"))
      ∧ TableReader.ofTables numbersDisk [⟨"t", numbers, some ⟨numbers⟩⟩] (some ⟨numbers⟩) ""
        = .ok r
      ∧ ∀ calls disk call e,
          ((RecordReader.perform disk call).run (r.behind calls)).result = .error e →
          ∃ fault, e = .io fault := by
  obtain ⟨-, hkeys, hwriter, hreader⟩ := keyed_of_ofJson
  obtain ⟨g, hg, hkeyed⟩ := hkeys numbers ["id"] ⟨numbers⟩ ⟨[⟨"id", .int, 0⟩]⟩ rfl rfl
  obtain ⟨key, hkey⟩ := hkeyed (Record.toJson [.int 5]) [.int 5] rfl
  have hparse : Projection.parse numbers "" = .ok ⟨[⟨"id", []⟩], numbers⟩ := by cbv
  have hopen : TableReader.ofTables numbersDisk [⟨"t", numbers, some ⟨numbers⟩⟩] (some ⟨numbers⟩) ""
      = .ok _ := TableReader.ofTables_eq_ok_iff.2 ⟨numbers, _, _, rfl, hparse, rfl, rfl⟩
  refine ⟨_, g, key, _, TableWriter.run_create_numbers, hg, hkey, fun e he => ?_, hopen,
    hreader _ _ _ _ _ hopen⟩
  rcases hwriter _ _ _ _ _ _ _ TableWriter.run_create_numbers [[.int 2]] [.int 1] e he with h | h
  · cases h
  · exact h

end TableScan
