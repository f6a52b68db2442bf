import TableScan.Proofs.RowKey.Keyable
import TableScan.Proofs.Schema.Text
import TableScan.Proofs.Table.Writing

/-!
# Created tables are opened as they were created

What a table says about itself after it was created and written: its schema is the one that it was
given, whatever the directory held before, and so are its sort columns where there are some. Their
names go through a file in which they stand between commas; no name of a column has a comma or white
space in it, so they come back as they were (`Table.namesOfList_intercalate`).

A table without sort columns has no such file, and creating it does not remove one that is there.
Main statement: the table opens as it was created just when it has sort columns or its directory has
no file of them (`TableWriter.openAt_finish_iff`).
-/

namespace TableScan

/-! ## Names between commas -/

namespace Grammar

/-- A name has no white space and no comma in it. -/
theorem forall_of_isName {name : List Char} (h : isName name = true) :
    ∀ c ∈ name, Text.isBlank c = false ∧ c ≠ ',' := by
  -- what may start a name may also stand in it
  have hpart : ∀ c ∈ name, isNamePart c = true := by
    cases name with
    | nil => cases h
    | cons d part =>
      obtain ⟨hstart, hrest⟩ := Bool.and_eq_true_iff.1 h
      rw [List.all_eq_true] at hrest
      refine List.forall_mem_cons.2 ⟨?_, hrest⟩
      unfold isNameStart at hstart
      unfold isNamePart Char.isAlphanum
      rw [Bool.or_right_comm, hstart, Bool.true_or]
  intro c hc
  refine ⟨isBlank_of_isNamePart (hpart c hc), ?_⟩
  rintro rfl
  exact absurd (hpart _ hc) (by decide)

end Grammar

/-- Names of the grammar come back from a list between commas. -/
theorem Table.namesOfList_intercalate {names : List String} (hne : names ≠ [])
    (h : ∀ name ∈ names, Grammar.isName name.toList = true) :
    namesOfList (",".intercalate names) = names := by
  have hcomma : ∀ name ∈ names, ',' ∉ name.toList := fun name hname hmem =>
    (Grammar.forall_of_isName (h name hname) _ hmem).2 rfl
  -- nothing is trimmed off a name
  have htrimmed : names.map Text.trimmed = names.map id := List.map_congr_left fun name hname =>
    Text.trimmed_of_forall fun c hc => (Grammar.forall_of_isName (h name hname) c hc).1
  have hsplit : Text.split ',' (",".intercalate names) = names :=
    Text.split_intercalate hne hcomma
  rw [namesOfList, hsplit, htrimmed, List.map_id, List.filter_eq_self]
  intro name hname
  rw [Bool.not_eq_true', String.isEmpty_eq_false_iff]
  rintro rfl
  exact absurd (h _ hname) (by decide)

/-! ## Orders by names -/

namespace SortOrder

/-- Names find columns of these names. -/
theorem names_of_forall₂ {names : List String} {schema : Schema} {columns : List Column}
    (h : List.Forall₂ (fun name c => schema.find? name = some c) names columns) :
    columns.map ColumnOf.name = names := by
  induction h with
  | nil => rfl
  | cons hc _ ih => rw [List.map_cons, (Schema.mem_of_find? hc).2, ih]

theorem names_of_ofNames {names : List String} {schema : Schema} {order : SortOrder}
    (h : ofNames names schema = .ok order) : order.names = names :=
  names_of_forall₂ (ofNames_eq_ok h).2

/-- An order by which rows have keys orders tuples of its own values too. -/
theorem exists_forTuples {order : SortOrder} {schema : Schema} {g : KeyLayout}
    (hdistinct : order.schema.NamesDistinct) (hg : KeyLayout.ofOrder order schema = .ok g) :
    ∃ tuples, KeyLayout.forTuples order = .ok tuples := by
  have hoccurs := KeyLayout.exists_ofOrder_iff.1 ⟨g, hg⟩
  exact KeyLayout.exists_forTuples_iff.2 ⟨hdistinct, fun c hc => (hoccurs c hc).1⟩

end SortOrder

/-! ## Opening what was created -/

namespace TableWriter

open Table (Frame.ofRow openAt readSortOrder sortInfoPath)

variable {disk disk₁ disk₂ : Disk} {dir : String} {schema : Schema} {sortColumns : List String}
  {w : TableWriter} {log : List Log.Entry}

/-- The sort columns of a created table stand in a file of their own. -/
theorem sortFile_of_create (hsound : disk.IsSound)
    (hcreate : (create dir schema sortColumns).run disk = ⟨.ok w, disk₁, log⟩)
    (hne : sortColumns ≠ []) : ∃ order g number, SortOrder.ofNames sortColumns schema = .ok order
      ∧ KeyLayout.ofOrder order schema = .ok g ∧ number ≠ w.file
      ∧ disk₁.root.find (sortInfoPath dir) = .ok (.file number)
      ∧ disk₁.bytesOf number = Text.utf8Bytes (",".intercalate order.names) := by
  obtain ⟨-, hsortName, hrowsName⟩ := isName_files
  obtain ⟨_, _, ordered, _, _, -, -, hputs, hempties, -⟩ := exists_of_create hsound hcreate
  cases hputs with
  | unsorted => exact absurd rfl hne
  | @sorted _ order g number _ _ _ horder hlayout hinfo =>
    -- the row file is emptied after that, and is another file
    obtain ⟨hfind, hbytes, hfile⟩ :=
      hempties.keeps hinfo.sound hrowsName hsortName (by decide) hinfo.found
    exact ⟨order, g, number, horder, hlayout, hfile, hfind, hbytes.trans hinfo.bytesOf_self⟩

/-- A created table opens with its schema, and with what the file of sort columns says. -/
theorem Created.openAt_eq (h : Created dir schema sortColumns w disk₁)
    (hschema : schema.IsWritable) (hsame : Disk.SameBut w.file disk₁ disk₂) :
    openAt disk₂ dir = (readSortOrder disk₂ dir schema).map fun order => ⟨dir, schema, order⟩ := by
  obtain ⟨number, hne, hfind, hbytes⟩ := h.schemaFile
  have hfile : disk₂.root.find (Table.schemaPath dir) = .ok (.file number) := by
    rw [hsame.root, hfind]
  have htext : disk₂.bytesOf number = Text.utf8Bytes schema.text := by
    rw [hsame.bytesOf number hne, hbytes]
  unfold openAt
  rw [Disk.readText_of_bytesOf hfile htext]
  simp only [Schema.parse_text hschema]
  show (readSortOrder disk₂ dir schema >>= fun order => .ok (Table.mk dir schema order)) = _
  cases readSortOrder disk₂ dir schema with
  | error e => rfl
  | ok order => rfl

/-- The sort columns of a created table are read back as they were given. -/
theorem readSortOrder_of_create (hsound : disk.IsSound) (hschema : schema.IsWritable)
    (hcreate : (create dir schema sortColumns).run disk = ⟨.ok w, disk₁, log⟩)
    (hne : sortColumns ≠ []) (hsame : Disk.SameBut w.file disk₁ disk₂) :
    ∃ order, readSortOrder disk₂ dir schema = .ok (some order) ∧ order.names = sortColumns := by
  obtain ⟨order, g, number, horder, hlayout, hfile, hfind, hbytes⟩ :=
    sortFile_of_create hsound hcreate hne
  have hnames := SortOrder.names_of_ofNames horder
  obtain ⟨hdistinct, hcolumns⟩ := SortOrder.ofNames_eq_ok horder
  obtain ⟨tuples, htuples⟩ := SortOrder.exists_forTuples hdistinct hlayout
  -- the rows were written to another file
  have hread : disk₂.readText (sortInfoPath dir) = .ok (",".intercalate order.names) := by
    have hfound : disk₂.root.find (sortInfoPath dir) = .ok (.file number) := by
      rw [hsame.root, hfind]
    have htext : disk₂.bytesOf number = Text.utf8Bytes (",".intercalate order.names) := by
      rw [hsame.bytesOf number hfile, hbytes]
    exact Disk.readText_of_bytesOf hfound htext
  -- the sort columns are columns of the schema, and their names are writable with it
  have hback : Table.namesOfList (",".intercalate order.names) = sortColumns := by
    rw [hnames]
    refine Table.namesOfList_intercalate hne fun name hname => ?_
    obtain ⟨c, _, hc⟩ := Results.exists_mem_of_forall₂ hcolumns.flip hname
    obtain ⟨hmem, rfl⟩ := Schema.mem_of_find? hc
    exact hschema.isName_of_mem hmem
  refine ⟨order, Table.readSortOrder_eq_ok_some_iff.2 ⟨_, tuples, hread, ?_, htuples⟩, hnames⟩
  rw [hback]
  exact horder

/-! ## Tables that were there before -/

/-- Creating a table without sort columns leaves a file of them that is there. -/
theorem sortFile_stays (hsound : disk.IsSound)
    (hcreate : (create dir schema []).run disk = ⟨.ok w, disk₁, log⟩) {number : Nat}
    (hfind : disk.root.find (sortInfoPath dir) = .ok (.file number)) :
    disk₁.root.find (sortInfoPath dir) = .ok (.file number)
      ∧ disk₁.bytesOf number = disk.bytesOf number ∧ number ≠ w.file := by
  obtain ⟨hschemaName, hsortName, hrowsName⟩ := isName_files
  obtain ⟨made, described, ordered, _, keys, hmade, hwrites, hputs, hempties, -⟩ :=
    exists_of_create hsound hcreate
  have hsame : (disk.makeDirs dir).2 = made := by rw [hmade]
  have hsoundMade : made.IsSound := hsame ▸ hsound.makeDirs dir
  -- making directories moves no file
  have hfindMade : made.root.find (sortInfoPath dir) = .ok (.file number) := by
    rw [← hsame]
    exact (FileTree.extends_makeDirs disk.root dir).find_eq hfind
  have hbytesMade : made.bytesOf number = disk.bytesOf number := by
    rw [← hsame]
    rfl
  obtain ⟨hfindDescribed, hbytesDescribed, -⟩ :=
    hwrites.keeps hsoundMade hschemaName hsortName (by decide) hfindMade
  cases hputs with
  | unsorted =>
    obtain ⟨hfindRows, hbytesRows, hne⟩ :=
      hempties.keeps hwrites.sound hrowsName hsortName (by decide) hfindDescribed
    exact ⟨hfindRows, hbytesRows.trans (hbytesDescribed.trans hbytesMade), hne⟩
  | sorted hne => exact absurd rfl hne

/-- A table that is created without sort columns over a sorted one opens with the columns of the old
one, looked up in the new schema. -/
theorem openAt_of_sortFile (hsound : disk.IsSound) (hschema : schema.IsWritable)
    (hcreate : (create dir schema []).run disk = ⟨.ok w, disk₁, log⟩) {number : Nat}
    (hfind : disk.root.find (sortInfoPath dir) = .ok (.file number))
    (hsame : Disk.SameBut w.file disk₁ disk₂) :
    openAt disk₂ dir = (readSortOrder disk dir schema).map fun order => ⟨dir, schema, order⟩ := by
  obtain ⟨hfound, hbytes, hne⟩ := sortFile_stays hsound hcreate hfind
  have hread : disk₂.readText (sortInfoPath dir) = disk.readText (sortInfoPath dir) := by
    unfold Disk.readText Disk.readBytes
    rw [hfind, hsame.root, hfound]
    simp only [hsame.bytesOf number hne, hbytes]
  rw [(create_spec hsound hcreate).openAt_eq hschema hsame]
  unfold readSortOrder
  rw [hread]

/-! ## Finished tables -/

/-- A created table is written and finished, and then its row file holds the rows that were stored
and no others. It opens with the schema that it was given, and with the sort columns that it was
given in their order, or none if there were none, just when there were some or the directory has no
file of sort columns: one that is there is left there. -/
theorem openAt_finish_iff (hsound : disk.IsSound) (hschema : schema.IsWritable)
    (hcreate : (create dir schema sortColumns).run disk = ⟨.ok w, disk₁, log⟩)
    (rows : List Record) :
    ∃ disk₂, (finish (appendEach rows (disk₁, w)).2.2).run (appendEach rows (disk₁, w)).2.1
        = ⟨.ok (storedOf rows (disk₁, w)).length, disk₂, []⟩
      ∧ disk₂.root.find (Table.rowFilePath dir) = .ok (.file w.file)
      ∧ disk₂.bytesOf w.file = (storedOf rows (disk₁, w)).flatMap Frame.ofRow
      ∧ ((∃ order, openAt disk₂ dir = .ok ⟨dir, schema, order⟩
          ∧ order.map SortOrder.names = if sortColumns.isEmpty then none else some sortColumns)
        ↔ sortColumns ≠ [] ∨ disk₁.root.find (sortInfoPath dir) = .error .notFound) := by
  have hcreated := create_spec hsound hcreate
  obtain ⟨disk₂, hfinish, hbytes, hsame⟩ := hcreated.run_finish rows
  have hrows : disk₂.root.find (Table.rowFilePath dir) = .ok (.file w.file) := by
    rw [hsame.root, hcreated.rowFile]
  refine ⟨disk₂, hfinish, hrows, hbytes, ?_⟩
  rw [hcreated.openAt_eq hschema hsame]
  by_cases hne : sortColumns = []
  · subst hne
    -- without sort columns the table opens as created just where no such file is found
    have hnone : disk₁.root.find (sortInfoPath dir) = .error .notFound
        ↔ readSortOrder disk₂ dir schema = .ok none := by
      rw [Table.readSortOrder_eq_ok_none_iff, Disk.readText_eq_notFound_iff, hsame.root]
    rw [hnone]
    constructor
    · rintro ⟨order, hopen, hnames⟩
      obtain ⟨own, hown, htable⟩ := Results.map_eq_ok_iff.1 hopen
      obtain rfl : own = order := congrArg Table.sortOrder htable
      obtain rfl : own = none := Option.map_eq_none_iff.1 hnames
      exact .inr hown
    · rintro (hne | hread)
      · exact absurd rfl hne
      · exact ⟨none, by rw [hread]; rfl, rfl⟩
  · obtain ⟨order, hread, hnames⟩ := readSortOrder_of_create hsound hschema hcreate hne hsame
    refine iff_of_true ⟨some order, ?_, ?_⟩ (.inl hne)
    · rw [hread]
      rfl
    · rw [if_neg (mt List.isEmpty_iff.1 hne), Option.map_some, hnames]

/-! ## A table over a sorted one -/

/-- One column of numbers. -/
def numbers : Schema := ⟨[⟨"id", .primitive .int⟩]⟩

/-- The disk after a table of numbers was created on an empty one, sorted by its column. -/
def numbersDisk : Disk where
  root := .dir
    [("t", .dir [(".schema", .file 0), (".sortinfo", .file 1), ("records.dat", .file 2)])]
  contents := [Text.utf8Bytes "id:int", Text.utf8Bytes "id", []]

theorem run_create_numbers : (create "t" numbers ["id"]).run Disk.empty
    = ⟨.ok ⟨"t", numbers, some ⟨[⟨"id", .int, 0⟩]⟩, none, 2, 0, [], 0⟩, numbersDisk, []⟩ := rfl

theorem isSound_numbersDisk : numbersDisk.IsSound :=
  (create_spec Disk.isSound_empty run_create_numbers).sound

/-- Numbers with a time. -/
def events : Schema := ⟨[⟨"id", .primitive .int⟩, ⟨"at", .primitive .long⟩]⟩

/-- A table of other columns in another order comes in the place of the old one. -/
theorem openAt_finish_events :
    ∃ w disk₁ disk₂ order, (create "t" events ["at", "id"]).run numbersDisk = ⟨.ok w, disk₁, []⟩
      ∧ (finish (appendEach [[.int 7, .long 3]] (disk₁, w)).2.2).run
          (appendEach [[.int 7, .long 3]] (disk₁, w)).2.1 = ⟨.ok 1, disk₂, []⟩
      ∧ openAt disk₂ "t" = .ok ⟨"t", events, some order⟩ ∧ order.names = ["at", "id"] := by
  let w : TableWriter :=
    ⟨"t", events, some ⟨[⟨"at", .long, 1⟩, ⟨"id", .int, 0⟩]⟩, none, 2, 0, [], 0⟩
  let disk₁ : Disk :=
    ⟨numbersDisk.root, [Text.utf8Bytes events.text, Text.utf8Bytes "at,id", []]⟩
  have hcreate : (create "t" events ["at", "id"]).run numbersDisk = ⟨.ok w, disk₁, []⟩ := rfl
  have hdistinct : events.names.Nodup := by decide
  have hschema : events.IsWritable :=
    ⟨⟨by decide, trivial, by decide, trivial, trivial⟩, hdistinct⟩
  have hstored : storedOf [[.int 7, .long 3]] (disk₁, w) = [[.int 7, .long 3]] :=
    storedOf_cons_of_ok (s := (disk₁, w)) rfl []
  obtain ⟨disk₂, hfinish, -, -, hopens⟩ :=
    openAt_finish_iff isSound_numbersDisk hschema hcreate [[.int 7, .long 3]]
  obtain ⟨order, hopen, hnames⟩ := hopens.2 (.inl (List.cons_ne_nil _ _))
  obtain ⟨own, rfl, hown⟩ := Option.map_eq_some_iff.1 hnames
  rw [hstored] at hfinish
  exact ⟨w, disk₁, disk₂, own, hcreate, hfinish, hopen, hown⟩

/-- A table that is created without sort columns over a sorted one takes rows in any order, and
opens as sorted. -/
theorem openAt_unsorted_numbers :
    ∃ w disk₁ disk₂, (create "t" numbers []).run numbersDisk = ⟨.ok w, disk₁, []⟩
      ∧ (∀ result ∈ (appendEach [[.int 2], [.int 1]] (disk₁, w)).1, result = .ok ())
      ∧ (finish (appendEach [[.int 2], [.int 1]] (disk₁, w)).2.2).run
          (appendEach [[.int 2], [.int 1]] (disk₁, w)).2.1 = ⟨.ok 2, disk₂, []⟩
      ∧ openAt disk₂ "t" = .ok ⟨"t", numbers, some ⟨numbers⟩⟩ := by
  let w : TableWriter := ⟨"t", numbers, none, none, 2, 0, [], 0⟩
  have hcreate : (create "t" numbers []).run numbersDisk = ⟨.ok w, numbersDisk, []⟩ := rfl
  have hcreated := create_spec isSound_numbersDisk hcreate
  have hdistinct : numbers.names.Nodup := by decide
  have hschema : numbers.IsWritable := ⟨⟨by decide, trivial, trivial⟩, hdistinct⟩
  have hdecoded : [[.int 2], [.int 1]].mapM (fun row : Record => Record.ofJson numbers row.toJson)
      = .ok [[.int 2], [.int 1]] := rfl
  have htaken : ∀ result ∈ (appendEach [[.int 2], [.int 1]] (numbersDisk, w)).1,
      result = .ok () := by
    refine results_of_unsorted (s := (numbersDisk, w)) rfl hcreated.atEnd fun row hrow => ?_
    obtain ⟨stored, -, hstored⟩ :=
      Results.exists_mem_of_forall₂ (Results.mapM_eq_ok_iff.1 hdecoded).flip hrow
    exact ⟨stored, hstored⟩
  have hstored : storedOf [[.int 2], [.int 1]] (numbersDisk, w) = [[.int 2], [.int 1]] := by
    have hall := Results.mapM_eq_ok_iff.2
      (forall₂_storedOf (s := (numbersDisk, w)) hcreated.atEnd htaken)
    exact Except.ok.inj (hall.symm.trans hdecoded)
  obtain ⟨disk₂, hfinish, -, hsame⟩ := hcreated.run_finish [[.int 2], [.int 1]]
  rw [hstored] at hfinish
  -- the sort columns are those of the old table
  have hfind : numbersDisk.root.find (sortInfoPath "t") = .ok (.file 1) := rfl
  have hnames : numbersDisk.bytesOf 1 = Text.utf8Bytes "id" := by
    simp [numbersDisk, Disk.bytesOf]
  have hread : readSortOrder numbersDisk "t" numbers = .ok (some ⟨numbers⟩) :=
    Table.readSortOrder_eq_ok_some_iff.2
      ⟨"id", ⟨[⟨"id", .int, 0⟩]⟩, Disk.readText_of_bytesOf hfind hnames, rfl, rfl⟩
  refine ⟨w, numbersDisk, disk₂, hcreate, htaken, hfinish, ?_⟩
  rw [openAt_of_sortFile isSound_numbersDisk hschema hcreate hfind hsame, hread]
  rfl

end TableWriter

end TableScan
