import TableScan.Proofs.Reader.Projected
import TableScan.Proofs.Table.Reopening
import TableScan.Proofs.Table.StoredValues

/-!
# Written tables are scanned as they were written

A table that is created, filled row by row and finished is read back as the rows that were appended,
in the form that the schema gives them.

Main statements: a table that is read alone shows its rows as they are
(`StorageEngine.exists_delivers_of_openAt`), and those of a table that was written are the rows that
were appended (`StorageEngine.openInput_written`).
-/

namespace TableScan

/-- A row of full width has a value for each column, so widening it to its own columns changes
nothing. -/
theorem Schema.widen_self {schema : Schema} {row : Record} (hdistinct : schema.NamesDistinct)
    (hwidth : row.length = schema.columns.length) : schema.widen schema row = row := by
  have hmap : ∀ (names : List String) (row : Record), names.Nodup → row.length = names.length →
      names.map (fun name => ((names.zip row).lookup name).getD .null) = row := by
    intro names
    induction names with
    | nil =>
      intro row _ hlength
      exact (List.length_eq_zero_iff.1 hlength).symm
    | cons name names ih =>
      intro row hnodup hlength
      obtain ⟨v, row, rfl⟩ := List.exists_cons_of_length_eq_add_one hlength
      obtain ⟨hnotin, hnodup⟩ := List.nodup_cons.1 hnodup
      rw [List.map_cons, List.zip_cons_cons, List.lookup_cons_self]
      refine congrArg (v :: ·) ((List.map_congr_left fun other hother => ?_).trans
        (ih row hnodup (Nat.succ.inj hlength)))
      have hne : (other == name) = false := by
        rw [beq_eq_false_iff_ne]
        exact fun heq => hnotin (heq ▸ hother)
      rw [List.lookup_cons, hne]
  unfold widen valueOf
  refine hmap schema.names row hdistinct (hwidth.trans ?_)
  exact (List.length_map _).symm

namespace Table

variable {disk disk₁ disk₂ : Disk} {dir : String} {schema : Schema} {w : TableWriter}

/-- A table that was created and then written to opens with the schema that it was given. -/
theorem openAt_of_created {sortColumns : List String}
    (hcreated : TableWriter.Created dir schema sortColumns w disk₁) (hschema : schema.IsWritable)
    (hnone : disk₁.root.find (sortInfoPath dir) = .error .notFound)
    (hsame : Disk.SameBut w.file disk₁ disk₂) : openAt disk₂ dir = .ok ⟨dir, schema, none⟩ := by
  have hread : readSortOrder disk₂ dir schema = .ok none := by
    rw [readSortOrder_eq_ok_none_iff, Disk.readText_eq_notFound_iff, hsame.root, hnone]
  rw [hcreated.openAt_eq hschema hsame, hread]
  rfl

end Table

namespace StorageEngine

open RecordReader (Delivers)
open TableWriter (create appendEach finish storedOf)

variable {disk disk₁ : Disk} {dir : String} {schema : Schema} {w : TableWriter}
  {log : List Log.Entry} {rows : List Record} {settings : Settings}

/-- A table that is read alone, unsorted and all columns of it, shows its rows as they are. -/
theorem exists_delivers_of_openAt {t : Table} {records : List Record}
    (hopen : Table.openAt disk dir = .ok t) (hholds : t.HoldsRows disk records)
    (hpaths : settings.tablePaths = .ok [dir]) (hunsorted : wantsSorted settings = false) :
    ∃ r, (ofDisk disk).openInput settings "" = .ok r ∧ r.schema = t.schema
      ∧ Delivers disk r records := by
  have hdistinct : t.schema.NamesDistinct := (Table.wellNamed_of_openAt hopen).distinct
  obtain ⟨r, hr, hschema, hdelivers⟩ := TableReader.exists_delivers_of_holdsRows
    (List.Forall₂.cons hholds .nil) (Schema.unionOf_singleton hdistinct)
    (show Projection.parse t.schema "" = .ok (Projection.identity t.schema) from rfl)
  have hwiden : records.map (t.schema.widen t.schema) = records := by
    refine (List.map_congr_left fun record hrecord => ?_).trans (List.map_id records)
    obtain ⟨number, -, hspells⟩ := hholds
    obtain ⟨j, hdecoded⟩ := hspells.exists_ofJson hrecord
    exact Schema.widen_self hdistinct (Record.forall₂_of_ofJson hdecoded).length_eq.symm
  have hall : Table.widened t.schema [t] [records] = records := by
    show (records.map (t.schema.widen t.schema) :: []).flatten = records
    rw [hwiden, List.flatten_singleton]
  rw [TableReader.recordsOf_identity, hall] at hdelivers
  refine ⟨r, ?_, hschema, hdelivers⟩
  rw [openInput_eq_readerOf hpaths hunsorted]
  exact readerOf_eq_ok_iff.2 ⟨List.cons_ne_nil _ _, [t],
    Results.mapM_eq_ok_iff.2 (.cons hopen .nil), hr⟩

/-- What is written is what is scanned: a table is created without sort columns, where no earlier
table has left any, and rows are appended to it, all of them taken. Then the writer can be finished,
and the table is read, all columns of it, as the rows that were appended, as its schema decodes
them, in the order in which they were appended, and behind them nothing. -/
theorem openInput_written (hsound : disk.IsSound) (hschema : schema.IsWritable)
    (hfree : schema.IsFloatFree) (hrows : ∀ row ∈ rows, row.KeysSorted)
    (hcreate : (create dir schema []).run disk = ⟨.ok w, disk₁, log⟩)
    (hnone : disk₁.root.find (Table.sortInfoPath dir) = .error .notFound)
    (htaken : ∀ result ∈ (appendEach rows (disk₁, w)).1, result = .ok ())
    (hsize : ∀ row ∈ rows, ∀ record, Record.ofJson schema row.toJson = .ok record →
      record.toJson.depth < Json.depthLimit ∧ (Table.Frame.ofRow record).length < 2 ^ 32)
    (hpaths : settings.tablePaths = .ok [dir]) (hunsorted : wantsSorted settings = false) :
    ∃ records disk₂ r,
      List.Forall₂ (fun row record => Record.ofJson schema row.toJson = .ok record) rows records
        ∧ (finish (appendEach rows (disk₁, w)).2.2).run (appendEach rows (disk₁, w)).2.1
          = ⟨.ok rows.length, disk₂, []⟩
        ∧ (ofDisk disk₂).openInput settings "" = .ok r ∧ r.schema = schema
        ∧ Delivers disk₂ r records := by
  have hcreated := TableWriter.create_spec hsound hcreate
  have hstored := TableWriter.forall₂_storedOf (s := (disk₁, w)) hcreated.atEnd htaken
  obtain ⟨disk₂, hfinish, hbytes, hsame⟩ := hcreated.run_finish rows
  generalize storedOf rows (disk₁, w) = records at hstored hfinish hbytes
  rw [hcreated.schema_eq] at hstored
  rw [← hstored.length_eq] at hfinish
  -- every row that is stored reads back as it is
  have hmember : ∀ record ∈ records, ∃ row ∈ rows, Record.ofJson schema row.toJson = .ok record :=
    fun record hrecord => Results.exists_mem_of_forall₂ hstored hrecord
  have hspells : SpellsRows schema (disk₂.bytesOf w.file) records := by
    rw [hbytes]
    refine spellsRows_flatMap ?_ (List.forall₂_same.2 ?_)
    · intro record hrecord
      obtain ⟨row, hrow, hdecoded⟩ := hmember record hrecord
      exact (hsize row hrow record hdecoded).2
    · intro record hrecord
      obtain ⟨row, hrow, hdecoded⟩ := hmember record hrecord
      obtain ⟨hread, hexact⟩ := Record.ofJson_toJson hfree (hrows row hrow) hdecoded
      exact ⟨_, Json.parse?_render hexact (hsize row hrow record hdecoded).1, hread⟩
  have hopen := Table.openAt_of_created hcreated hschema hnone hsame
  have hholds : Table.HoldsRows disk₂ ⟨dir, schema, none⟩ records := by
    refine ⟨w.file, ?_, hspells⟩
    rw [hsame.root]
    exact hcreated.rowFile
  obtain ⟨r, hr, hrSchema, hdelivers⟩ := exists_delivers_of_openAt hopen hholds hpaths hunsorted
  exact ⟨records, disk₂, r, hstored, hfinish, hr, hrSchema, hdelivers⟩

/-- Numbered rows with files by their names. -/
def attachments : Schema := ⟨[⟨"id", .primitive .int⟩, ⟨"files", .map (.primitive .bytes)⟩]⟩

/-- The first number comes as a wide one. -/
def attachmentRows : List Record := [[.long 7, .map [("a", .bytes [1, 255])]], [.int 8, .null]]

theorem openInput_written_attachments :
    ∃ w disk₁ disk₂ r,
      (create "t" attachments []).run Disk.empty = ⟨.ok w, disk₁, []⟩
        ∧ (finish (appendEach attachmentRows (disk₁, w)).2.2).run
          (appendEach attachmentRows (disk₁, w)).2.1 = ⟨.ok 2, disk₂, []⟩
        ∧ (ofDisk disk₂).openInput (Settings.empty.withTables ["t"]) "" = .ok r
        ∧ Delivers disk₂ r [[.int 7, .map [("a", .bytes [1, 255])]], [.int 8, .null]] := by
  let records : List Record := [[.int 7, .map [("a", .bytes [1, 255])]], [.int 8, .null]]
  let disk₁ : Disk := ⟨.dir [("t", .dir [(".schema", .file 0), ("records.dat", .file 1)])],
    [Text.utf8Bytes attachments.text, []]⟩
  let w : TableWriter := ⟨"t", attachments, none, none, 1, 0, [], 0⟩
  have hcreate : (create "t" attachments []).run Disk.empty = ⟨.ok w, disk₁, []⟩ := rfl
  have hnone : disk₁.root.find (Table.sortInfoPath "t") = .error .notFound := rfl
  have hdistinct : attachments.names.Nodup := by decide
  have hschema : attachments.IsWritable :=
    ⟨⟨by decide, trivial, by decide, trivial, trivial⟩, hdistinct⟩
  have hfree : attachments.IsFloatFree := ⟨⟨nofun, nofun⟩, ⟨nofun, nofun⟩, trivial⟩
  have hrows : ∀ row ∈ attachmentRows, row.KeysSorted :=
    List.forall_mem_cons.2 ⟨⟨trivial, ⟨.cons nofun .nil, trivial, trivial⟩, trivial⟩,
      List.forall_mem_cons.2 ⟨⟨trivial, trivial, trivial⟩, nofun⟩⟩
  have hdecoded : attachmentRows.mapM (fun row => Record.ofJson attachments row.toJson)
      = .ok records := rfl
  have htaken : ∀ result ∈ (appendEach attachmentRows (disk₁, w)).1, result = .ok () := by
    have hcreated := TableWriter.create_spec Disk.isSound_empty hcreate
    refine TableWriter.results_of_unsorted (s := (disk₁, w)) rfl hcreated.atEnd fun row hrow => ?_
    obtain ⟨record, -, hrecord⟩ :=
      Results.exists_mem_of_forall₂ (Results.mapM_eq_ok_iff.1 hdecoded).flip hrow
    exact ⟨record, hrecord⟩
  have hsize : ∀ row ∈ attachmentRows, ∀ record,
      Record.ofJson attachments row.toJson = .ok record →
        record.toJson.depth < Json.depthLimit ∧ (Table.Frame.ofRow record).length < 2 ^ 32 := by
    have hrecords : ∀ record ∈ records,
        record.toJson.depth < Json.depthLimit ∧ (Table.Frame.ofRow record).length < 2 ^ 32 := by
      simp only [records, List.forall_mem_cons, Table.length_ofRow]
      exact ⟨⟨by decide, by cbv⟩, ⟨by decide, by cbv⟩, nofun⟩
    intro row hrow record hrecord
    obtain ⟨record', hmem, hrecord'⟩ :=
      Results.exists_mem_of_forall₂ (Results.mapM_eq_ok_iff.1 hdecoded).flip hrow
    obtain rfl := Except.ok.inj (hrecord.symm.trans hrecord')
    exact hrecords record hmem
  have hpaths : (Settings.empty.withTables ["t"]).tablePaths = .ok ["t"] := by cbv
  have hunsorted : wantsSorted (Settings.empty.withTables ["t"]) = false := by cbv
  obtain ⟨records', disk₂, r, hdecoded', hfinish, hopen, -, hdelivers⟩ :=
    openInput_written Disk.isSound_empty hschema hfree hrows hcreate hnone htaken hsize hpaths
      hunsorted
  obtain rfl : records' = records :=
    Except.ok.inj ((Results.mapM_eq_ok_iff.2 hdecoded').symm.trans hdecoded)
  exact ⟨w, disk₁, disk₂, r, hcreate, hfinish, hopen, hdelivers⟩

end StorageEngine

end TableScan
