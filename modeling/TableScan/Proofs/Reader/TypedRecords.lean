import TableScan.Proofs.Keeps
import TableScan.Proofs.Reader.Merge
import TableScan.Proofs.Table.TypedRows

/-!
# Typed records

What a reader hands out is typed by its schema, whatever the row files hold and whatever is called,
after failed calls as well: a row is decoded by the schema of its own table or not handed out at
all, and the columns of all tables are those of their union.

`TableCursor.ShowsTyped` is the invariant of a cursor. Every call of a reader keeps it of all its
cursors and hands out nothing else than typed records (`TableReader.handsOutTyped_perform`).

Main statement: all records that calls answer are typed by the schema of the reader
(`TableReader.hasTypes_of_mem_answers`).
-/

namespace TableScan

open Step (Keeps)

/-- A step that starts where `P` holds ends where `P` holds, and a record that it hands out is typed
by some columns. -/
def Step.HandsOutTyped {σ : Type} (columns : List Column) (P : σ → Prop)
    (step : Step σ (Option Record)) : Prop :=
  ∀ s, P s → P (step.run s).state
    ∧ ∀ record, (step.run s).result = .ok (some record) → record.HasTypes columns

/-! ## Cursors -/

namespace TableCursor

variable {disk : Disk} {columns : List Column} {s s' : TableCursor} {log : List Log.Entry}

/-- A cursor projects the rows of its table to records that are typed by some columns, and its head
is a row of its table. -/
structure ShowsTyped (columns : List Column) (s : TableCursor) : Prop where
  projected : ∀ row : Record, row.HasTypes s.table.schema.columns →
    (s.projected row).HasTypes columns
  head : ∀ key row, s.head = some (key, row) → row.HasTypes s.table.schema.columns

/-- The invariant is about the table, the columns and the head only. -/
theorem ShowsTyped.of_sameView (h : s.ShowsTyped columns) (hsame : SameView s s') :
    s'.ShowsTyped columns := by
  constructor
  · unfold TableCursor.projected
    rw [hsame.table, hsame.columns]
    exact h.projected
  · rw [hsame.table, hsame.head]
    exact h.head

/-- Reading a row changes how far the cursor is in its file, whatever comes of it. -/
theorem sameView_nextRow (disk : Disk) (s : TableCursor) : SameView s (nextRow disk s).state := by
  unfold nextRow
  split
  · exact ⟨rfl, rfl, rfl, rfl⟩
  · split
    · exact ⟨rfl, rfl, rfl, rfl⟩
    · exact ⟨rfl, rfl, rfl, rfl⟩
    · split
      · exact ⟨rfl, rfl, rfl, rfl⟩
      · exact ⟨rfl, rfl, rfl, rfl⟩

/-- A row that was read was decoded by the schema of the table. -/
theorem exists_ofJson_of_nextRow {row : Record} (h : nextRow disk s = ⟨.ok (some row), s', log⟩) :
    ∃ payload, Record.ofJson s.table.schema payload = .ok row := by
  unfold nextRow at h
  split at h
  · cases h
  · split at h
    · cases h
    · cases h
    · next payload _ _ _ =>
      unfold rowOf at h
      split at h
      · next hrow =>
        split at hrow
        · next hdecoded =>
          obtain rfl := Except.ok.inj hrow
          obtain rfl := Option.some.inj (Except.ok.inj (Outcome.mk.inj h).1)
          exact ⟨payload, hdecoded⟩
        · cases hrow
      · cases h

/-- So it is typed by the schema. -/
theorem hasTypes_of_nextRow {row : Record} (h : nextRow disk s = ⟨.ok (some row), s', log⟩) :
    row.HasTypes s.table.schema.columns := by
  obtain ⟨payload, hdecoded⟩ := exists_ofJson_of_nextRow h
  exact Record.hasTypes_of_ofJson hdecoded

/-- Showing a head keeps the invariant: the head is a row that was just read. -/
theorem keeps_loadHead (disk : Disk) (columns : List Column) :
    Keeps (ShowsTyped columns) (loadHead disk) := by
  intro s hs
  have hsame := sameView_nextRow disk s
  unfold Step.run loadHead
  split
  · exact hs
  · rcases hnext : nextRow disk s with ⟨result, s', log⟩
    rw [hnext] at hsame
    have hs' := hs.of_sameView hsame
    cases result with
    | error e => exact hs'
    | ok found =>
      cases found with
      | none => exact hs'
      | some row =>
        dsimp only
        cases s'.keyOf row with
        | error e => exact hs'
        | ok key =>
          -- the new head is the row that was read
          refine ⟨hs'.projected, fun k shown hshown => ?_⟩
          obtain rfl : row = shown := (Prod.mk.inj (Option.some.inj hshown)).2
          show row.HasTypes s'.table.schema.columns
          rw [hsame.table]
          exact hasTypes_of_nextRow hnext

/-- Without a head there is nothing to show. -/
theorem ShowsTyped.dropHead (h : s.ShowsTyped columns) : s.dropHead.ShowsTyped columns :=
  ⟨h.projected, fun _ _ hhead => by cases hhead⟩

/-- Dropping heads below a key keeps the invariant. -/
theorem keeps_dropBelow (disk : Disk) (columns : List Column) (key : RowKey) :
    Keeps (ShowsTyped columns) (dropBelow disk key) := by
  intro s hs
  -- all cases of the walk end behind a head that was loaded
  have hkept : ∀ {s s' : TableCursor} {result : LoadResult Unit} {log : List Log.Entry},
      loadHead disk s = ⟨result, s', log⟩ → s.ShowsTyped columns → s'.ShowsTyped columns := by
    intro s s' result log hload hs
    have hs' := keeps_loadHead disk columns s hs
    unfold Step.run at hs'
    rwa [hload] at hs'
  show (dropBelow disk key s).state.ShowsTyped columns
  fun_induction dropBelow disk key s with
  | case1 s cause s' log hload => exact hkept hload hs
  | case2 s s' log hload => exact hkept hload hs
  | case3 s s' log hload k row hhead hlt r ih => exact ih (hkept hload hs).dropHead
  | case4 s s' log hload => exact hkept hload hs

end TableCursor

namespace TableReader

open TableCursor (ShowsTyped)

variable {disk : Disk} {columns : List Column} {schema : Schema} {cursors : List TableCursor}

/-! ## All cursors -/

/-- What a step keeps of one cursor it keeps of all. -/
theorem keeps_forCursors {P : TableCursor → Prop} {step : Step TableCursor Unit}
    (h : Keeps P step) : Keeps (fun cursors => ∀ s ∈ cursors, P s) (forCursors step) := by
  intro cursors hcursors s' hs'
  have hstates : List.Forall₂ (fun s s' => P s → P s') cursors (forCursors step cursors).state := by
    refine forall₂_forCursors (fun _ hs => hs) ?_ cursors
    exact h
  obtain ⟨s, hs, hkept⟩ := Results.exists_mem_of_forall₂ hstates hs'
  exact hkept (hcursors s hs)

/-- The head that is taken is shown typed, and the cursors stay as they should be. -/
theorem takeKey_typed (key : RowKey) (h : ∀ s ∈ cursors, s.ShowsTyped columns) :
    (∀ s ∈ (takeKey key cursors).2, s.ShowsTyped columns)
      ∧ ∀ record, (takeKey key cursors).1 = some record → record.HasTypes columns := by
  induction cursors with
  | nil => exact ⟨h, fun _ hrecord => by cases hrecord⟩
  | cons s rest ih =>
    obtain ⟨hs, hrest⟩ := List.forall_mem_cons.1 h
    obtain ⟨hstates, hrecord⟩ := ih hrest
    have hlater := List.forall_mem_cons.2 ⟨hs, hstates⟩
    unfold takeKey
    cases hhead : s.head with
    | none => exact ⟨hlater, hrecord⟩
    | some shown =>
      obtain ⟨k, row⟩ := shown
      -- the head of this cursor is taken, or one behind it
      by_cases hkey : k = key
      · simp only [if_pos hkey]
        refine ⟨List.forall_mem_cons.2 ⟨hs.dropHead, hrest⟩, fun record htaken => ?_⟩
        obtain rfl := Option.some.inj htaken
        exact hs.projected row (hs.head k row hhead)
      · simp only [if_neg hkey]
        exact ⟨hlater, hrecord⟩

/-- The least head that is taken is typed. -/
theorem takeLeast_typed (h : ∀ s ∈ cursors, s.ShowsTyped columns) :
    (∀ s ∈ (takeLeast cursors).2, s.ShowsTyped columns)
      ∧ ∀ record, (takeLeast cursors).1 = some record → record.HasTypes columns := by
  unfold takeLeast
  cases leastKey cursors with
  | none => exact ⟨h, fun _ hrecord => by cases hrecord⟩
  | some key => exact takeKey_typed key h

/-- A merge hands out heads. -/
theorem handsOutTyped_nextMerged (disk : Disk) (columns : List Column) :
    (nextMerged disk).HandsOutTyped columns fun cursors => ∀ s ∈ cursors, s.ShowsTyped columns := by
  intro cursors hcursors
  have hshown := keeps_forCursors (TableCursor.keeps_loadHead disk columns) cursors hcursors
  unfold Step.run at hshown ⊢
  rcases hrun : forCursors (TableCursor.loadHead disk) cursors with ⟨result, cursors', log⟩
  rw [hrun] at hshown
  cases result with
  | error cause =>
    rw [nextMerged_of_failed hrun]
    exact ⟨hshown, fun _ hrecord => by cases hrecord⟩
  | ok _ =>
    obtain ⟨hresult, hstate⟩ := nextMerged_of_shown hrun
    obtain ⟨hcursors', htaken⟩ := takeLeast_typed hshown
    rw [hresult, hstate]
    exact ⟨hcursors', fun record hrecord => htaken record (Except.ok.inj hrecord)⟩

/-- Tables in turn hand out the row that was read last. -/
theorem handsOutTyped_nextInTurn (disk : Disk) (columns : List Column) :
    (nextInTurn disk).HandsOutTyped columns fun cursors => ∀ s ∈ cursors, s.ShowsTyped columns := by
  intro cursors hcursors
  unfold Step.run
  induction cursors with
  | nil => exact ⟨hcursors, fun _ hrecord => by cases hrecord⟩
  | cons s rest ih =>
    obtain ⟨hs, hrest⟩ := List.forall_mem_cons.1 hcursors
    have hsame := TableCursor.sameView_nextRow disk s
    unfold nextInTurn
    rcases hnext : TableCursor.nextRow disk s with ⟨result, s', log⟩
    rw [hnext] at hsame
    have hs' := hs.of_sameView hsame
    have hstates := List.forall_mem_cons.2 ⟨hs', hrest⟩
    cases result with
    | error cause => exact ⟨hstates, fun _ hrecord => by cases hrecord⟩
    | ok found =>
      cases found with
      -- a table at its end is left for the next one
      | none => exact ih hrest
      | some row =>
        refine ⟨hstates, fun record hrecord => ?_⟩
        obtain rfl := Option.some.inj (Except.ok.inj hrecord)
        refine hs'.projected row ?_
        rw [hsame.table]
        exact TableCursor.hasTypes_of_nextRow hnext

/-! ## Readers -/

/-- A reader of a schema all of whose cursors show rows typed by it. -/
structure IsTyped (schema : Schema) (r : TableReader) : Prop where
  sameSchema : r.schema = schema
  cursors : ∀ s ∈ r.cursors, s.ShowsTyped schema.columns

/-- Either way of reading hands out typed records. -/
theorem handsOutTyped_next (disk : Disk) (schema : Schema) :
    (next disk).HandsOutTyped schema.columns (IsTyped schema) := by
  intro r hr
  by_cases hsorted : r.sorted = true
  · rw [run_next_of_sorted disk hsorted]
    obtain ⟨hcursors, hrecord⟩ := handsOutTyped_nextMerged disk schema.columns _ hr.cursors
    exact ⟨⟨hr.sameSchema, hcursors⟩, hrecord⟩
  · rw [run_next_of_unsorted disk hsorted]
    obtain ⟨hcursors, hrecord⟩ := handsOutTyped_nextInTurn disk schema.columns _ hr.cursors
    exact ⟨⟨hr.sameSchema, hcursors⟩, hrecord⟩

/-- Positioning a reader keeps its cursors typed. -/
theorem keeps_seekTo (disk : Disk) (schema : Schema) (key : RowKey) :
    Keeps (IsTyped schema) (seekTo disk key) := by
  intro r hr
  by_cases hsorted : r.sorted = true
  · rw [run_seekTo_of_sorted disk key hsorted]
    have hdrop := TableCursor.keeps_dropBelow disk schema.columns key
    exact ⟨hr.sameSchema, keeps_forCursors hdrop _ hr.cursors⟩
  · rw [run_seekTo_of_unsorted disk key hsorted]
    exact hr

/-- Every call of a reader hands out a typed record or none. -/
theorem handsOutTyped_perform (disk : Disk) (schema : Schema) (call : ReaderCall) :
    (RecordReader.perform disk call).HandsOutTyped schema.columns (IsTyped schema) := by
  cases call with
  | next => exact handsOutTyped_next disk schema
  | seek key =>
    -- a seek hands out nothing, so only the state is at stake
    intro r hr
    have hkept := keeps_seekTo disk schema key r hr
    rcases hseek : (seekTo disk key).run r with ⟨result, r', log⟩
    rw [hseek] at hkept
    cases result with
    | error cause =>
      have hrun : (RecordReader.perform disk (.seek key)).run r = ⟨.error cause, r', log⟩ :=
        Step.run_bind_error hseek
      rw [hrun]
      exact ⟨hkept, fun _ hrecord => by cases hrecord⟩
    | ok _ =>
      have hrun : (RecordReader.perform disk (.seek key)).run r = ⟨.ok none, r', log ++ []⟩ :=
        Step.run_bind_ok hseek
      rw [hrun]
      exact ⟨hkept, fun _ hrecord => by cases hrecord⟩

/-- What a typed reader answers to any calls is typed. -/
theorem IsTyped.hasTypes_of_mem_answers {r : TableReader} (h : r.IsTyped schema)
    {calls : List ReaderCall} {record : Record}
    (hrecord : .ok (some record) ∈ RecordReader.answers disk r calls) :
    record.HasTypes schema.columns := by
  induction calls generalizing r with
  | nil => cases hrecord
  | cons call calls ih =>
    obtain ⟨hkept, htyped⟩ := handsOutTyped_perform disk schema call r h
    -- the answer of the first call, or one of those behind it
    rcases List.mem_cons.1 hrecord with hnow | hlater
    · exact htyped record hnow.symm
    · exact ih hkept hlater

/-- A reader of opened tables is typed by its own schema. -/
theorem isTyped_of_ofTables {tables : List Table} {order : Option SortOrder} {text : String}
    {r : TableReader} (hwell : ∀ t ∈ tables, t.schema.WellNamed)
    (h : ofTables disk tables order text = .ok r) : r.IsTyped r.schema := by
  obtain ⟨logical, p, cursors, hunion, hp, hcursors, rfl⟩ := ofTables_eq_ok_iff.1 h
  have hschemas : ∀ s ∈ tables.map Table.schema, s.WellNamed := by
    intro s hs
    obtain ⟨t, ht, rfl⟩ := List.mem_map.1 hs
    exact hwell t ht
  have hresolves : p.ResolvesIn logical :=
    Projection.resolvesIn_of_parse hp (Schema.wellNamed_of_unionOf hunion hschemas).distinct
  refine ⟨rfl, fun s hs => ?_⟩
  obtain ⟨t, ht, hopened⟩ :=
    Results.exists_mem_of_forall₂ (Results.mapM_eq_ok_iff.1 hcursors) hs
  obtain ⟨keys, file, -, -, rfl⟩ := TableCursor.openTable_eq_ok_iff.1 hopened
  refine ⟨fun row hrow => ?_, fun _ _ hhead => by cases hhead⟩
  -- the cursor's own projection is that by name, and the names mean the same in every table
  rw [TableCursor.projected_eq hresolves.selectsOnce rfl row]
  refine Projection.hasTypes_ofRow hresolves (fun c hc => ?_) hrow
  exact Schema.find?_of_unionOf hunion hschemas (List.mem_map_of_mem ht) hc

/-- Tables that open hand out nothing but records of the schema of their reader: each has one field
for each column, which is null or a value of the type of the column. -/
theorem hasTypes_of_mem_answers {paths : List String} {tables : List Table}
    {order : Option SortOrder} {text : String} {r : TableReader}
    (hopen : paths.mapM (Table.openAt disk) = .ok tables)
    (h : ofTables disk tables order text = .ok r) {calls : List ReaderCall} {record : Record}
    (hrecord : .ok (some record) ∈ RecordReader.answers disk r calls) :
    record.HasTypes r.schema.columns :=
  (isTyped_of_ofTables (Table.wellNamed_of_mapM_openAt hopen) h).hasTypes_of_mem_answers hrecord

end TableReader

end TableScan
