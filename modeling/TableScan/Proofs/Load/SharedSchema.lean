import Mathlib
import TableScan.Proofs.Load.ValidPlans
import TableScan.Proofs.Reader.TypedRecords

/-!
# Schemas of planning and of reading

A coordinator finds the schema of its input by going through the tables one by one, from the first
one on, and resolves its projection against what it keeps of that. A reader opens the tables again
and resolves the projection text against a union that starts with no columns. `LoadPlan.IsOpenedAs`
says what both come to for a plan that can be run: the same union, the same projection, and one
order for all tables of a sorted plan.

Main statement: what a partition opens for a plan of a coordinator has the schema that the host was
shown and hands out records of it, and the only thing that can be wrong with it is a row file that
cannot be opened (`Loader.openInput_of_mem_plansOf`).
-/

namespace TableScan

/-! ## Opening -/

/-- A row file that does not open fails with its path. -/
theorem RowFile.openAt_eq_error {disk : Disk} {path : String} {e : LoadError}
    (h : openAt disk path = .error e) : ∃ cause, e = .io (.rowsUnopened path cause) := by
  unfold openAt at h
  split at h
  · next cause _ => exact ⟨cause, (Except.error.inj h).symm⟩
  · cases h
  · cases h

/-- A table with a layout for its keys opens but for its row file. -/
theorem TableCursor.openTable_eq_error {disk : Disk} {p : Projection} {order : Option SortOrder}
    {t : Table} {e : LoadError} (hkeys : ∃ keys, keysOf order t.schema = .ok keys)
    (h : openTable disk p order t = .error e) :
    ∃ cause, e = .io (.rowsUnopened (Table.rowFilePath t.path) cause) := by
  obtain ⟨keys, hkeys⟩ := hkeys
  rw [openTable_eq_bind, hkeys] at h
  rcases Results.bind_eq_error_iff.1 h with hnone | ⟨_, -, h⟩
  · cases hnone
  · rcases Results.bind_eq_error_iff.1 h with hfile | ⟨_, -, h⟩
    · exact RowFile.openAt_eq_error hfile
    · cases h

/-- Tables that have a union, against which the text resolves, and layouts for their keys open but
for a row file. -/
theorem TableReader.ofTables_eq_error {disk : Disk} {tables : List Table}
    {order : Option SortOrder} {logical : Schema} {text : String} {p : Projection} {e : LoadError}
    (hunion : Schema.unionOf (tables.map Table.schema) = .ok logical)
    (hp : Projection.parse logical text = .ok p)
    (hkeys : ∀ t ∈ tables, ∃ keys, TableCursor.keysOf order t.schema = .ok keys)
    (h : ofTables disk tables order text = .error e) :
    ∃ t ∈ tables, ∃ cause, e = .io (.rowsUnopened (Table.rowFilePath t.path) cause) := by
  unfold ofTables at h
  rw [hunion, Results.bind_eq_error_iff] at h
  rcases h with hnone | ⟨_, hlogical, h⟩
  · cases hnone
  obtain rfl := Except.ok.inj hlogical
  -- neither the union nor the projection fails, so it is one of the cursors
  rw [hp, Results.bind_eq_error_iff] at h
  rcases h with hnone | ⟨_, hprojection, h⟩
  · cases hnone
  obtain rfl := Except.ok.inj hprojection
  rcases Results.bind_eq_error_iff.1 h with hcursors | ⟨_, -, h⟩
  · obtain ⟨t, ht, herror⟩ := Results.exists_mem_of_mapM_eq_error hcursors
    exact ⟨t, ht, TableCursor.openTable_eq_error (hkeys t ht) herror⟩
  · cases h

/-- Tables that all have one order have it in common. -/
theorem Table.commonOrder_eq_ok {tables : List Table} {order : SortOrder} (hne : tables ≠ [])
    (h : ∀ t ∈ tables, t.sortOrder = some order) : commonOrder tables = .ok order := by
  obtain ⟨first, rest, rfl⟩ := List.exists_cons_of_ne_nil hne
  obtain ⟨hfirst, hrest⟩ := List.forall_mem_cons.1 h
  have hchecked : rest.forM (checkOrder order) = .ok () := by
    refine Results.forM_eq_ok fun t ht => ?_
    unfold checkOrder
    rw [hrest t ht]
    exact if_pos rfl
  unfold commonOrder
  simp only [hfirst, hchecked]
  rfl

/-! ## Plans that are opened -/

namespace LoadPlan

variable {disk : Disk} {d : LoadPlan} {tables : List Table} {order : Option SortOrder}
  {p : Projection}

/-- A plan is opened as some tables, merged by an order if there is one, through a projection: that
is what the plan says of them, and all their keys have layouts. -/
structure IsOpenedAs (disk : Disk) (d : LoadPlan) (tables : List Table) (order : Option SortOrder)
    (p : Projection) : Prop where
  opens : d.paths.mapM (Table.openAt disk) = .ok tables
  union : Schema.unionOf (tables.map Table.schema) = .ok d.schema
  resolves : Projection.parse d.schema d.projectionText = .ok p
  visible : ProjectionChoice.visibleSchema d.schema d.projection = .ok p.schema
  merged : StorageEngine.orderOf tables d.sorted = .ok order
  keys : ∀ t ∈ tables, ∃ keys, TableCursor.keysOf order t.schema = .ok keys

/-- A plan that can be run on a disk is opened as its tables. -/
theorem IsValidOn.exists_isOpenedAs (h : d.IsValidOn disk) :
    ∃ tables order p, d.IsOpenedAs disk tables order p := by
  obtain ⟨tables, hopen, hunion, hsorted⟩ := h.tables
  obtain ⟨p, hp, -, hcolumns⟩ := h.projection
  have hvisible : ProjectionChoice.visibleSchema d.schema d.projection = .ok p.schema := by
    refine Results.bind_eq_ok_iff.2 ⟨p, hp, if_neg ?_⟩
    exact fun hempty => hcolumns (List.isEmpty_iff.1 hempty)
  have hparse : Projection.parse d.schema d.projectionText = .ok p := by
    rw [← hp, ProjectionChoice.projectionOf_eq_parse]
    rfl
  -- a plan that is not sorted needs no layouts, a sorted one those of the order of its tables
  cases hmerged : d.sorted with
  | false =>
    refine ⟨tables, none, p, hopen, hunion, hparse, hvisible, ?_, fun t _ => ⟨none, rfl⟩⟩
    rw [hmerged]
    rfl
  | true =>
    obtain ⟨order, -, hshared⟩ := hsorted hmerged
    have hpaired := Results.mapM_eq_ok_iff.1 hopen
    have hne : tables ≠ [] := by
      rintro rfl
      exact h.hasTables (List.forall₂_nil_right_iff.1 hpaired)
    refine ⟨tables, some order, p, hopen, hunion, hparse, hvisible, ?_, fun t ht => ?_⟩
    · rw [hmerged, StorageEngine.orderOf, if_pos rfl, Table.commonOrder_eq_ok hne hshared]
      rfl
    · obtain ⟨path, -, hpath⟩ := Results.exists_mem_of_forall₂ hpaired ht
      obtain ⟨keys, hkeys⟩ := KeyLayout.exists_ofOrder_of_openAt hpath (hshared t ht)
      exact ⟨some keys, Results.map_eq_ok_iff.2 ⟨keys, hkeys, rfl⟩⟩

/-- Settings that name the tables of the plan and want them merged as the plan says. -/
theorem IsOpenedAs.openInput_eq (h : d.IsOpenedAs disk tables order p) (hne : d.paths ≠ [])
    {settings : Settings} (hpaths : settings.tablePaths = .ok d.paths)
    (hsorted : StorageEngine.wantsSorted settings = d.sorted) (text : String) :
    (StorageEngine.ofDisk disk).openInput settings text
      = TableReader.ofTables disk tables order text := by
  show (settings.tablePaths >>= fun paths =>
    StorageEngine.readerOf disk paths (StorageEngine.wantsSorted settings) text) = _
  rw [hpaths, hsorted]
  exact StorageEngine.readerOf_eq_ofTables hne h.opens h.merged text

/-- A reader of the plan has the schema that the plan shows. -/
theorem IsOpenedAs.schema_of_ofTables (h : d.IsOpenedAs disk tables order p) {r : TableReader}
    (hr : TableReader.ofTables disk tables order d.projectionText = .ok r) :
    r.schema = p.schema := by
  obtain ⟨logical, own, cursors, hunion, hown, -, rfl⟩ := TableReader.ofTables_eq_ok_iff.1 hr
  obtain rfl : d.schema = logical := Except.ok.inj (h.union.symm.trans hunion)
  obtain rfl : p = own := Except.ok.inj (h.resolves.symm.trans hown)
  rfl

end LoadPlan

/-! ## What the host was shown -/

namespace Loader

variable {disk : Disk} {l l' : Loader TableReader} {d : LoadPlan} {log : List Log.Entry}

/-- What a host is shown at a location is the schema that the loader keeps, projected. -/
theorem schemaAt_eq_ok {backend : Backend TableReader} {location : String} {job : JobSettings}
    {shown : Schema} (h : (schemaAt backend location job).run l = ⟨.ok shown, l', log⟩) :
    ∃ logical, l'.schema = some logical
      ∧ ProjectionChoice.visibleSchema logical l'.projection = .ok shown := by
  unfold schemaAt at h
  -- the steps: resolve, look up the schema, agree on the order
  obtain ⟨_, l₁, _, _, -, h⟩ := Step.exists_of_run_bind h
  obtain ⟨logical, l₂, _, _, hschema, h⟩ := Step.exists_of_run_bind h
  obtain ⟨_, l₃, _, _, horder, h⟩ := Step.exists_of_run_bind h
  obtain rfl := inputSchema_eq_ok hschema
  obtain ⟨order, rfl, -⟩ := inputOrder_eq_ok horder
  rw [Step.run_bind_get] at h
  obtain ⟨hvisible, rfl, -⟩ := Outcome.mk.inj h
  exact ⟨logical, rfl, hvisible⟩

/-- A loader that knows a schema of the tables of a plan knows the schema of the plan. -/
theorem AgreesWith.eq_schema (h : l.AgreesWith disk) {logical : Schema}
    (hlogical : l.schema = some logical) (hpaths : l.paths = d.paths) {tables : List Table}
    {order : Option SortOrder} {p : Projection} (hopened : d.IsOpenedAs disk tables order p) :
    logical = d.schema := by
  obtain ⟨own, hown, hunion⟩ := h.schema logical hlogical
  rw [hpaths] at hown
  obtain rfl : own = tables := Except.ok.inj (hown.symm.trans hopened.opens)
  exact Except.ok.inj (hunion.symm.trans hopened.union)

/-- Whatever a host calls of a coordinator on a disk, a partition that opens the tables of a plan
that it got, merged as the plan says, through the projection of the plan, fails at most by a row
file that does not open. The reader has the schema that the plan shows; that is the schema which the
host is shown at these tables under this projection, before or after the plan. All records of the
reader have one field for each of its columns, null or a value of the type of the column. -/
theorem openInput_of_mem_plansOf (h : IsCoordinator l)
    {calls : List (JobSettings × LoaderCall TableReader)} (hd : d ∈ l.plansOf (onDisk disk calls))
    {settings : Settings} (hpaths : settings.tablePaths = .ok d.paths)
    (hsorted : StorageEngine.wantsSorted settings = d.sorted) :
    (∀ e, (StorageEngine.ofDisk disk).openInput settings d.projectionText = .error e →
        ∃ path ∈ d.paths, ∃ cause, e = .io (.rowsUnopened (Table.rowFilePath path) cause))
      ∧ ∀ r, (StorageEngine.ofDisk disk).openInput settings d.projectionText = .ok r →
        ProjectionChoice.visibleSchema d.schema d.projection = .ok r.schema
        ∧ (∀ (asked : List (JobSettings × LoaderCall TableReader)) (location : String)
            (job : JobSettings) (shown : Schema) (l' : Loader TableReader) (log : List Log.Entry),
          (schemaAt (Backend.ofDisk disk) location job).run (l.behind (onDisk disk asked))
              = ⟨.ok shown, l', log⟩ →
          l'.paths = d.paths → l'.projection = d.projection → shown = r.schema)
        ∧ ∀ (readerCalls : List ReaderCall) (record : Record),
          .ok (some record) ∈ RecordReader.answers disk r readerCalls →
          record.HasTypes r.schema.columns := by
  have hkept : ∀ calls, ∀ c ∈ onDisk disk calls, IsKept c.1.backend fun l => l.AgreesWith disk := by
    intro calls c hc
    obtain ⟨own, -, rfl⟩ := List.mem_map.1 hc
    exact isKept_agreesWith disk
  -- the loader that handed the plan out agreed with the disk
  obtain ⟨carrier, hagrees, hcarries, visible, hvisible⟩ :=
    exists_carries_of_mem_plansOf (hkept calls) (h.agreesWith disk) hd
  have hvalid : d.IsValidOn disk := hcarries.isValidOn hagrees hvisible
  obtain ⟨tables, order, p, hopened⟩ := hvalid.exists_isOpenedAs
  rw [hopened.openInput_eq hvalid.hasTables hpaths hsorted]
  refine ⟨fun e he => ?_, fun r hr => ?_⟩
  · obtain ⟨t, ht, cause, rfl⟩ :=
      TableReader.ofTables_eq_error hopened.union hopened.resolves hopened.keys he
    obtain ⟨path, hpath, hopen⟩ :=
      Results.exists_mem_of_forall₂ (Results.mapM_eq_ok_iff.1 hopened.opens) ht
    obtain ⟨_, -, -, -, hown⟩ := Table.openAt_eq_ok_iff.1 hopen
    rw [hown]
    exact ⟨path, hpath, cause, rfl⟩
  have hschema : r.schema = p.schema := hopened.schema_of_ofTables hr
  refine ⟨hopened.visible.trans (congrArg _ hschema.symm), ?_, fun readerCalls record => ?_⟩
  · intro asked location job shown l' log hshown hpaths' hprojection
    obtain ⟨logical, hlogical, hvisible⟩ := schemaAt_eq_ok hshown
    -- so did the loader that the host was shown the schema by
    have hagrees' : l'.AgreesWith disk := by
      have hstate := (isKept_agreesWith disk).schemaAt location job _
        (behind_of_isKept (hkept asked) (h.agreesWith disk))
      rwa [hshown] at hstate
    rw [hagrees'.eq_schema hlogical hpaths' hopened, hprojection, hopened.visible] at hvisible
    exact (Except.ok.inj hvisible).symm.trans hschema.symm
  · exact TableReader.hasTypes_of_mem_answers hopened.opens hr

section Numbered

open TableReader (numberedTables)

/-- The settings of a partition that merges two tables. -/
def settingsOfNumbered : Settings :=
  (Settings.empty.set SettingKey.inputSorted.name "true").withTables ["a", "b"]

/-- The two tables open for a merge. -/
theorem exists_readerOf_numberedTables :
    ∃ r, StorageEngine.readerOf numberedTables ["a", "b"] true "s" = .ok r := by
  have hp : Projection.parse planOfNumbered.schema "s"
      = .ok ⟨[⟨"s", []⟩], ⟨[⟨"s", .primitive .string⟩]⟩⟩ := by cbv
  -- a table opens with the layout of its number
  have hcursor : ∀ dir file, RowFile.openAt numberedTables (Table.rowFilePath dir) = .ok file →
      ∃ s, TableCursor.openTable numberedTables ⟨[⟨"s", []⟩], ⟨[⟨"s", .primitive .string⟩]⟩⟩
        planOfNumbered.sortOrder ⟨dir, planOfNumbered.schema, planOfNumbered.sortOrder⟩ = .ok s :=
    fun dir file hfile => ⟨_, TableCursor.openTable_eq_ok_iff.2 ⟨_, file, rfl, hfile, rfl⟩⟩
  obtain ⟨first, hfirst⟩ := hcursor "a" _ rfl
  obtain ⟨second, hsecond⟩ := hcursor "b" _ rfl
  have hcursors := Results.mapM_eq_ok_iff.2 (.cons hfirst (.cons hsecond .nil))
  rw [StorageEngine.readerOf_eq_ofTables (List.cons_ne_nil _ _)
    TableReader.mapM_openAt_numberedTables rfl]
  exact ⟨_, TableReader.ofTables_eq_ok_iff.2 ⟨_, _, _, rfl, hp, hcursors, rfl⟩⟩

/-- What a partition opens to merge two tables shows their texts, as the host has chosen. -/
theorem openInput_planOfNumbered :
    ∃ r, (StorageEngine.ofDisk numberedTables).openInput settingsOfNumbered "s" = .ok r
      ∧ r.schema = ⟨[⟨"s", .primitive .string⟩]⟩
      ∧ ∀ (readerCalls : List ReaderCall) (record : Record),
        .ok (some record) ∈ RecordReader.answers numberedTables r readerCalls →
        record.HasTypes [⟨"s", .primitive .string⟩] := by
  have hcoordinator : IsCoordinator loaderOfTexts := by
    have hl : ofArguments ["s", "sorted"] = .ok loaderOfTexts := by cbv
    exact .ofArguments hl
  have hplan : planOfNumbered ∈ loaderOfTexts.plansOf (onDisk numberedTables callsOfNumbered) := by
    rw [plansOf_loaderOfTexts]
    exact List.mem_singleton_self _
  have hpaths : settingsOfNumbered.tablePaths = .ok planOfNumbered.paths :=
    Settings.tablePaths_withTables _ _
  have hsorted : StorageEngine.wantsSorted settingsOfNumbered = planOfNumbered.sorted := by cbv
  obtain ⟨r, hr⟩ := exists_readerOf_numberedTables
  have hopens : (StorageEngine.ofDisk numberedTables).openInput settingsOfNumbered "s"
      = .ok r := by
    show (settingsOfNumbered.tablePaths >>= fun paths => StorageEngine.readerOf numberedTables
      paths (StorageEngine.wantsSorted settingsOfNumbered) "s") = _
    rw [hpaths, hsorted]
    exact hr
  obtain ⟨-, hopened⟩ := openInput_of_mem_plansOf hcoordinator hplan hpaths hsorted
  obtain ⟨hvisible, -, htyped⟩ := hopened r hopens
  have hschema : r.schema = ⟨[⟨"s", .primitive .string⟩]⟩ := by
    have hshown : ProjectionChoice.visibleSchema planOfNumbered.schema planOfNumbered.projection
        = .ok ⟨[⟨"s", .primitive .string⟩]⟩ := by cbv
    exact Except.ok.inj (hvisible.symm.trans hshown)
  rw [hschema] at htyped
  exact ⟨r, hopens, hschema, htyped⟩

end Numbered

end Loader

end TableScan
