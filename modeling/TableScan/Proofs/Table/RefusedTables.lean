import Mathlib
import TableScan.Proofs.Files.Contents
import TableScan.Proofs.Table.Cursors
import TableScan.Proofs.Table.Reopening

/-!
# Tables that are refused

Creating a table fails when its rows cannot be ordered by the sort columns that are given
(`Schema.CanSortBy`). They are looked at behind the schema, which is written by then, and in front
of the other two files. So of a table that was there the sort columns and the rows stay, and its
schema is the one of the table that was refused.

Main statement: no file but the one of the schema changes, and it changes unless the schema could
not be written or was there already (`TableWriter.create_unsortable`).
-/

namespace TableScan

/-! ## Columns to sort by -/

/-- Rows of a schema can be ordered by the columns of some names: each name is the one of a column
whose values have an order, and none is there twice. -/
def Schema.CanSortBy (schema : Schema) (names : List String) : Prop :=
  names.Nodup ∧ ∀ name ∈ names, ∃ c, schema.find? name = some c ∧ c.type.isSortable = true

variable {names : List String} {schema : Schema}

namespace SortOrder

/-- Distinct names of columns make an order. -/
theorem exists_ofNames (hne : names ≠ []) (hnodup : names.Nodup)
    (hfind : ∀ name ∈ names, ∃ c, schema.find? name = some c) :
    ∃ order, ofNames names schema = .ok order := by
  cases h : ofNames names schema with
  | ok order => exact ⟨order, rfl⟩
  | error e =>
    rcases Results.bind_eq_error_iff.1 h with hnames | ⟨columns, hnames, hcolumns⟩
    -- each name finds its column
    · obtain ⟨name, hname, hnone⟩ := Results.exists_mem_of_mapM_eq_error hnames
      obtain ⟨c, hc⟩ := hfind name hname
      rw [hc] at hnone
      cases hnone
    · have hfound : List.Forall₂ (fun name c => schema.find? name = some c) names columns := by
        refine (Results.mapM_eq_ok_iff.1 hnames).imp fun name c hc => ?_
        split at hc
        · next d hd => rw [hd, Except.ok.inj hc]
        · cases hc
      -- the columns have the names, and these are distinct
      have hdistinct : Schema.NamesDistinct ⟨columns⟩ := by
        rw [Schema.NamesDistinct, Schema.names, names_of_forall₂ hfound]
        exact hnodup
      have hempty : ¬ columns.isEmpty = true := by
        intro hnil
        rw [List.isEmpty_iff.1 hnil, List.forall₂_nil_right_iff] at hfound
        exact hne hfound
      rw [ofColumns, if_neg hempty, Schema.ofColumns_eq_ok_iff.2 ⟨rfl, hdistinct⟩] at hcolumns
      cases hcolumns

end SortOrder

namespace KeyLayout

/-- The layout of the keys of rows that are ordered by the columns of some names. -/
def ofNames (names : List String) (schema : Schema) : LoadResult KeyLayout := do
  let order ← SortOrder.ofNames names schema
  ofOrder order schema

/-- Where there is a layout for some names, rows can be sorted by them. -/
theorem canSortBy_of_ofNames {g : KeyLayout} (h : ofNames names schema = .ok g) :
    schema.CanSortBy names := by
  obtain ⟨order, horder, hg⟩ := Results.bind_eq_ok_iff.1 h
  obtain ⟨hdistinct, hcolumns⟩ := SortOrder.ofNames_eq_ok horder
  have hnames : order.names = names := SortOrder.names_of_ofNames horder
  refine ⟨hnames ▸ hdistinct, fun name hname => ?_⟩
  obtain ⟨c, hc, hfind⟩ := Results.exists_mem_of_forall₂ hcolumns.flip hname
  exact ⟨c, hfind, (exists_ofOrder_iff.1 ⟨g, hg⟩ c hc).1⟩

/-- There are keys for one or more names just when rows can be ordered by their columns. -/
theorem exists_ofNames_iff (hne : names ≠ []) :
    (∃ g, ofNames names schema = .ok g) ↔ schema.CanSortBy names := by
  refine ⟨fun ⟨g, hg⟩ => canSortBy_of_ofNames hg, fun ⟨hnodup, hsortable⟩ => ?_⟩
  obtain ⟨order, horder⟩ := SortOrder.exists_ofNames hne hnodup fun name hname =>
    (hsortable name hname).imp fun c hc => hc.1
  -- the columns are found in the schema under their own names
  have hoccurs : order.OccursIn schema := by
    intro c hc
    obtain ⟨name, hname, hfind⟩ :=
      Results.exists_mem_of_forall₂ (SortOrder.ofNames_eq_ok horder).2 hc
    obtain ⟨own, hown, htype⟩ := hsortable name hname
    obtain rfl := Option.some.inj (hown.symm.trans hfind)
    exact ⟨htype, find?_of_ofNames horder hc⟩
  obtain ⟨g, hg⟩ := exists_ofOrder_iff.2 hoccurs
  exact ⟨g, Results.bind_eq_ok_iff.2 ⟨order, horder, hg⟩⟩

/-- What is wrong with sort columns is no matter of files. -/
theorem group_of_ofNames {e : LoadError} (h : ofNames names schema = .error e) : e.group ≠ .io := by
  rcases Results.bind_eq_error_iff.1 h with horder | ⟨order, -, hlayout⟩
  -- an unknown name, no names or a name twice
  · rcases Results.bind_eq_error_iff.1 horder with hnames | ⟨columns, -, hcolumns⟩
    · obtain ⟨name, -, hname⟩ := Results.exists_mem_of_mapM_eq_error hnames
      split at hname
      · cases hname
      · cases hname
        nofun
    · unfold SortOrder.ofColumns at hcolumns
      split at hcolumns
      · cases hcolumns
        nofun
      · obtain ⟨name, rfl⟩ := Schema.foldlM_push_eq_error (Results.map_eq_error_iff.1 hcolumns)
        nofun
  -- a column without an order, or one that the schema does not have
  · obtain ⟨c, -, hc⟩ := Results.exists_mem_of_mapM_eq_error (Results.map_eq_error_iff.1 hlayout)
    unfold KeyField.ofColumn at hc
    split at hc
    · cases hc
      nofun
    · split at hc
      · split at hc
        · cases hc
        · cases hc
          nofun
      · cases hc
        nofun

/-- Sort columns by which rows cannot be sorted are there, and are refused. -/
theorem exists_error_of_not_canSortBy (h : ¬ schema.CanSortBy names) :
    names ≠ [] ∧ ∃ e, ofNames names schema = .error e ∧ e.group ≠ .io := by
  have hne : names ≠ [] := by
    rintro rfl
    exact h ⟨List.nodup_nil, fun name hname => absurd hname List.not_mem_nil⟩
  refine ⟨hne, ?_⟩
  cases hg : ofNames names schema with
  | error e => exact ⟨e, rfl, group_of_ofNames hg⟩
  | ok g => exact absurd ((exists_ofNames_iff hne).1 ⟨g, hg⟩) h

end KeyLayout

namespace TableWriter

open Table (openAt readSortOrder schemaPath sortInfoPath rowFilePath)

variable {disk disk₁ : Disk} {dir : String} {schema : Schema} {sortColumns : List String}

/-! ## Failing creates -/

/-- Sort columns that are refused are refused before their names are written. -/
theorem run_putSortInfo_of_error {e : LoadError} (hne : sortColumns ≠ [])
    (h : KeyLayout.ofNames sortColumns schema = .error e) (disk : Disk) :
    (putSortInfo dir schema sortColumns).run disk = ⟨.error e, disk, []⟩ := by
  unfold putSortInfo
  rw [if_neg (mt List.isEmpty_iff.1 hne)]
  rcases Results.bind_eq_error_iff.1 h with horder | ⟨order, horder, hlayout⟩
  · refine Step.run_bind_error ?_
    rw [horder]
    rfl
  · rw [Step.run_bind_ok (a := order) (by rw [horder]; rfl)]
    rw [Step.run_bind_error (by rw [hlayout]; rfl)]
    rfl

/-- The schema is there by then. -/
theorem run_create_of_writeText {made : Disk} {e : LoadError} (hne : sortColumns ≠ [])
    (h : KeyLayout.ofNames sortColumns schema = .error e)
    (hdirs : disk.makeDirs dir = (.ok (), made))
    (hwrite : made.writeText (schemaPath dir) schema.text = .ok disk₁) :
    (create dir schema sortColumns).run disk = ⟨.error e, disk₁, []⟩ := by
  have hmake : (putDirs dir).run disk = ⟨.ok (), made, []⟩ := by
    unfold Step.run putDirs
    rw [hdirs]
  have hput : (putText (schemaPath dir) schema.text).run made = ⟨.ok (), disk₁, []⟩ := by
    unfold Step.run putText
    rw [hwrite]
  unfold create
  rw [Step.run_bind_ok hmake, Step.run_bind_ok hput,
    Step.run_bind_error (run_putSortInfo_of_error hne h disk₁)]
  rfl

/-- Creating a table with such columns fails at the directories or the schema, and otherwise at the
columns, when the schema is written. -/
theorem create_cases {e : LoadError} (hne : sortColumns ≠ [])
    (h : KeyLayout.ofNames sortColumns schema = .error e) (disk : Disk) :
    (∃ fault, (create dir schema sortColumns).run disk
        = ⟨.error (.io fault), (disk.makeDirs dir).2, []⟩)
      ∨ ∃ disk₁, (disk.makeDirs dir).2.writeText (schemaPath dir) schema.text = .ok disk₁
        ∧ (create dir schema sortColumns).run disk = ⟨.error e, disk₁, []⟩ := by
  rcases hdirs : disk.makeDirs dir with ⟨result, made⟩
  cases result with
  | error cause =>
    have hmake : (putDirs dir).run disk
        = ⟨.error (.io (.directoryUncreated dir cause)), made, []⟩ := by
      unfold Step.run putDirs
      rw [hdirs]
    exact .inl ⟨_, Step.run_bind_error hmake⟩
  | ok _ =>
    -- with the directories there, the schema is the next to fail
    cases hwrite : made.writeText (schemaPath dir) schema.text with
    | ok disk₁ => exact .inr ⟨disk₁, rfl, run_create_of_writeText hne h hdirs hwrite⟩
    | error cause =>
      have hmake : (putDirs dir).run disk = ⟨.ok (), made, []⟩ := by
        unfold Step.run putDirs
        rw [hdirs]
      have hput : (putText (schemaPath dir) schema.text).run made
          = ⟨.error (.io (.unwritten (schemaPath dir) cause)), made, []⟩ := by
        unfold Step.run putText
        rw [hwrite]
      refine .inl ⟨.unwritten (schemaPath dir) cause, ?_⟩
      unfold create
      rw [Step.run_bind_ok hmake, Step.run_bind_error hput]
      rfl

/-! ## Tables that were there -/

/-- What becomes of a table when text is written over its schema: the text is its schema, in which
its sort columns are looked up, and its rows are what they were. -/
structure Overwrites (disk : Disk) (t : Table) (text : String) (disk₁ : Disk) : Prop where
  openAt_eq : openAt disk₁ t.path = (do
    let schema ← Schema.parse text
    let order ← readSortOrder disk t.path schema
    return ⟨t.path, schema, order⟩)
  rows_iff : ∀ rows, t.HoldsRows disk₁ rows ↔ t.HoldsRows disk rows

/-- A table is as it was just when the text is the one of its schema. -/
theorem Overwrites.openAt_iff {t : Table} {text : String} (h : Overwrites disk t text disk₁)
    (hopen : openAt disk t.path = .ok t) :
    openAt disk₁ t.path = .ok t ↔ Schema.parse text = .ok t.schema := by
  obtain ⟨_, -, -, horder, -⟩ := Table.openAt_eq_ok_iff.1 hopen
  rw [h.openAt_eq, Results.bind_eq_ok_iff]
  constructor
  · rintro ⟨schema, hparse, hrest⟩
    obtain ⟨order, -, ht⟩ := Results.bind_eq_ok_iff.1 hrest
    rw [hparse, ← Except.ok.inj ht]
  · exact fun hparse => ⟨t.schema, hparse, Results.bind_eq_ok_iff.2 ⟨t.sortOrder, horder, rfl⟩⟩

/-- New bytes in the schema file are new text for the schema of the table. -/
theorem overwrites_setBytes {t : Table} {number : Nat} (text : String) (hsound : disk.IsSound)
    (hfind : disk.root.find (schemaPath t.path) = .ok (.file number)) :
    Overwrites disk t text (disk.setBytes number (Text.utf8Bytes text)) := by
  obtain ⟨hschemaName, hsortName, hrowsName⟩ := isName_files
  obtain ⟨place, -, hplace⟩ := FileTree.at?_of_find hfind
  have hbytes : (disk.setBytes number (Text.utf8Bytes text)).bytesOf number = Text.utf8Bytes text :=
    Disk.bytesOf_setBytes_self (hsound.bounded place number hplace) _
  -- the schema is the new text, and the other two files are not touched
  have hread : (disk.setBytes number (Text.utf8Bytes text)).readText (schemaPath t.path)
      = .ok text := Disk.readText_of_bytesOf hfind hbytes
  constructor
  · unfold openAt readSortOrder
    rw [hread]
    simp only [sortInfoPath,
      Disk.readText_setBytes_of_ne hsound hschemaName hsortName (by decide) hfind]
  · intro rows
    refine exists_congr fun file => and_congr_right fun hrows => ?_
    have hne : number ≠ file :=
      hsound.ne_of_find_join hschemaName hrowsName (by decide) hfind hrows
    rw [Disk.bytesOf_setBytes_of_ne hne]

/-- Where a table is, creating another one does not fail before its schema is written. -/
theorem overwrites_of_create {t : Table} {e fault : LoadError} (hsound : disk.IsSound)
    (hne : sortColumns ≠ []) (h : KeyLayout.ofNames sortColumns schema = .error e)
    (hrun : (create dir schema sortColumns).run disk = ⟨.error fault, disk₁, []⟩)
    (hopen : openAt disk dir = .ok t) : fault = e ∧ Overwrites disk t schema.text disk₁ := by
  obtain ⟨hschemaName, -, -⟩ := isName_files
  obtain ⟨_, htext, -, -, rfl⟩ := Table.openAt_eq_ok_iff.1 hopen
  obtain ⟨number, hfind⟩ := Disk.find_of_readText htext
  -- the directory is there already
  have hdirs : disk.makeDirs t.path = (.ok (), disk) := by
    unfold Disk.makeDirs
    rw [FileTree.makeDirs_of_find_join hschemaName hfind]
  -- and so the schema is written, which is all that becomes of the disk
  have hown := run_create_of_writeText hne h hdirs (Disk.writeText_of_find_join hschemaName hfind)
  obtain ⟨hresult, rfl, -⟩ := Outcome.mk.inj (hrun.symm.trans hown)
  exact ⟨Except.error.inj hresult, overwrites_setBytes schema.text hsound hfind⟩

/-- Creating a table whose rows cannot be ordered by the sort columns fails. The file of sort
columns and the row file are then as they were, and so are all other files but the one of the
schema. That one is as it was if the failure came before it was written or it held the same text;
otherwise it holds the new schema. A table that was there keeps its rows, has its sort columns
looked up in the new schema, and opens as before just when that is its own schema. -/
theorem create_unsortable (dir : String) (hsound : disk.IsSound)
    (hrefused : ¬ schema.CanSortBy sortColumns) :
    ∃ e disk₁, (create dir schema sortColumns).run disk = ⟨.error e, disk₁, []⟩
      ∧ disk₁.fileOf? (sortInfoPath dir) = disk.fileOf? (sortInfoPath dir)
      ∧ disk₁.fileOf? (rowFilePath dir) = disk.fileOf? (rowFilePath dir)
      ∧ (∀ place, Path.namesOf (schemaPath dir) ≠ some place →
          disk₁.fileAt? place = disk.fileAt? place)
      ∧ (disk₁.fileOf? (schemaPath dir) = disk.fileOf? (schemaPath dir)
          ↔ e.group = .io ∨ disk.fileOf? (schemaPath dir) = some (Text.utf8Bytes schema.text))
      ∧ ∀ t, openAt disk dir = .ok t → e.group ≠ .io ∧ Overwrites disk t schema.text disk₁
          ∧ (openAt disk₁ dir = .ok t ↔ Schema.parse schema.text = .ok t.schema) := by
  obtain ⟨hschemaName, hsortName, hrowsName⟩ := isName_files
  obtain ⟨hne, e, he, hgroup⟩ := KeyLayout.exists_error_of_not_canSortBy hrefused
  -- a table that is there shows that the schema was written
  have hthere : ∀ fault disk₁,
      (create dir schema sortColumns).run disk = ⟨.error fault, disk₁, []⟩ →
      ∀ t, openAt disk dir = .ok t → fault.group ≠ .io ∧ Overwrites disk t schema.text disk₁
        ∧ (openAt disk₁ dir = .ok t ↔ Schema.parse schema.text = .ok t.schema) := by
    intro fault disk₁ hrun t hopen
    obtain ⟨rfl, hover⟩ := overwrites_of_create hsound hne he hrun hopen
    obtain ⟨_, -, -, -, rfl⟩ := Table.openAt_eq_ok_iff.1 hopen
    exact ⟨hgroup, hover, hover.openAt_iff hopen⟩
  have hmade := disk.fileAt?_makeDirs dir
  have hsame := disk.fileOf?_makeDirs dir
  rcases create_cases hne he disk with ⟨fault, hrun⟩ | ⟨disk₁, hwrite, hrun⟩
  · exact ⟨_, _, hrun, hsame _, hsame _, fun place _ => hmade place,
      iff_of_true (hsame _) (.inl rfl), hthere _ _ hrun⟩
  · obtain ⟨hself, hothers⟩ := Disk.files_of_writeText (hsound.makeDirs dir) hschemaName hwrite
    refine ⟨e, disk₁, hrun, ?_, ?_, fun place hplace => (hothers place hplace).trans (hmade place),
      ?_, hthere e disk₁ hrun⟩
    · exact (Disk.fileOf?_join_of_ne hschemaName hsortName (by decide) hothers).trans (hsame _)
    · exact (Disk.fileOf?_join_of_ne hschemaName hrowsName (by decide) hothers).trans (hsame _)
    · rw [schemaPath, hself, or_iff_right hgroup, eq_comm]

/-! ## A table of one number -/

/-- A disk with a table of one number. -/
def oneNumber : Disk where
  root := .dir [("t", .dir [(".schema", .file 0), ("records.dat", .file 1)])]
  contents := [Text.utf8Bytes "id:int", Table.Frame.around (Text.utf8Bytes "[7]")]

theorem isSound_oneNumber : oneNumber.IsSound := by
  have hcreate : (create "t" numbers []).run Disk.empty
      = ⟨.ok ⟨"t", numbers, none, none, 1, 0, [], 0⟩,
        ⟨oneNumber.root, [Text.utf8Bytes "id:int", []]⟩, []⟩ := rfl
  exact (create_spec Disk.isSound_empty hcreate).sound.setBytes 1
    (Table.Frame.around (Text.utf8Bytes "[7]"))

theorem openAt_oneNumber : openAt oneNumber "t" = .ok ⟨"t", numbers, none⟩
    ∧ Table.HoldsRows oneNumber ⟨"t", numbers, none⟩ [[.int 7]] := by
  constructor
  · have hfile : oneNumber.root.find (schemaPath "t") = .ok (.file 0) := rfl
    have hbytes : oneNumber.bytesOf 0 = Text.utf8Bytes "id:int" := by
      simp [oneNumber, Disk.bytesOf]
    exact Table.openAt_of_utf8Bytes hfile hbytes (by cbv) rfl
  · have hbytes : oneNumber.bytesOf 1 = Table.Frame.around (Text.utf8Bytes "[7]") ++ [] := by
      simp [oneNumber, Disk.bytesOf]
    have hpayload : Json.parse? "[7]" = some (.array [.number (.int 7)]) := by cbv
    refine ⟨1, rfl, ?_⟩
    rw [hbytes]
    exact .cons_text (by decide) hpayload rfl (.nil _)

/-- One column of labels. -/
def labels : Schema := ⟨[⟨"name", .primitive .string⟩]⟩

/-- A table with its own schema is refused in its place, and nothing is lost. -/
theorem create_unsortable_numbers :
    ∃ e disk₁, (create "t" numbers ["zz"]).run oneNumber = ⟨.error e, disk₁, []⟩
      ∧ openAt disk₁ "t" = .ok ⟨"t", numbers, none⟩
      ∧ Table.HoldsRows disk₁ ⟨"t", numbers, none⟩ [[.int 7]] := by
  have hrefused : ¬ numbers.CanSortBy ["zz"] := by
    rintro ⟨-, hall⟩
    obtain ⟨c, hc, -⟩ := hall "zz" List.mem_cons_self
    cases hc
  obtain ⟨hopen, hrows⟩ := openAt_oneNumber
  obtain ⟨e, disk₁, hrun, -, -, -, -, htable⟩ :=
    create_unsortable "t" isSound_oneNumber hrefused
  obtain ⟨-, hover, hiff⟩ := htable _ hopen
  have hdistinct : numbers.names.Nodup := by decide
  have hwritable : numbers.IsWritable := ⟨⟨by decide, trivial, trivial⟩, hdistinct⟩
  exact ⟨e, disk₁, hrun, hiff.2 (Schema.parse_text hwritable), (hover.rows_iff _).2 hrows⟩

/-- Labels are refused in the place of the number, which is a row of labels from then on. -/
theorem create_unsortable_overwrites :
    openAt oneNumber "t" = .ok ⟨"t", numbers, none⟩
      ∧ Table.HoldsRows oneNumber ⟨"t", numbers, none⟩ [[.int 7]]
      ∧ ∃ e disk₁, (create "t" labels ["zz"]).run oneNumber = ⟨.error e, disk₁, []⟩
        ∧ openAt disk₁ "t" = .ok ⟨"t", labels, none⟩
        ∧ disk₁.fileOf? (schemaPath "t") ≠ oneNumber.fileOf? (schemaPath "t") := by
  obtain ⟨hopen, hrows⟩ := openAt_oneNumber
  refine ⟨hopen, hrows, .configuration (.sortColumnUnknown "zz" labels.text),
    oneNumber.setBytes 0 (Text.utf8Bytes labels.text), rfl, ?_, ?_⟩
  · have hfile : (oneNumber.setBytes 0 (Text.utf8Bytes labels.text)).root.find (schemaPath "t")
      = .ok (.file 0) := rfl
    have hdistinct : labels.names.Nodup := by decide
    exact Table.openAt_of_utf8Bytes hfile (Disk.bytesOf_setBytes_self (by decide) _)
      (Schema.parse_text ⟨⟨by decide, trivial, trivial⟩, hdistinct⟩) rfl
  · have hplace : Path.namesOf (schemaPath "t") = some ["t", ".schema"] := rfl
    -- the schema file holds other bytes than before
    have hold : oneNumber.fileAt? ["t", ".schema"] = some (Text.utf8Bytes "id:int") :=
      Disk.fileAt?_eq_some_iff.2 ⟨0, rfl, rfl⟩
    have hnew : (oneNumber.setBytes 0 (Text.utf8Bytes labels.text)).fileAt? ["t", ".schema"]
        = some (Text.utf8Bytes labels.text) :=
      Disk.fileAt?_eq_some_iff.2 ⟨0, rfl, Disk.bytesOf_setBytes_self (by decide) _⟩
    rw [Disk.fileOf?, Disk.fileOf?, hplace, Option.bind_some, Option.bind_some, hold, hnew]
    intro hsame
    have htext : labels.text = "id:int" := Text.utf8Bytes_injective (Option.some.inj hsame)
    exact absurd htext (by decide)

end TableWriter

end TableScan
