import TableScan.Proofs.Schema.Union
import TableScan.Table.Basic

/-!
# Opening tables

What the files of a table directory have to hold for the table to open: schema text that parses, and
either no file of sort columns or one that names columns by which rows can be ordered.
-/

namespace TableScan.Table

variable {disk : Disk} {dir : String} {schema : Schema}

/-- A table has no order just where the file of sort columns is missing. -/
theorem readSortOrder_eq_ok_none_iff :
    readSortOrder disk dir schema = .ok none
      ↔ disk.readText (sortInfoPath dir) = .error .notFound := by
  unfold readSortOrder
  constructor
  · intro h
    split at h
    · assumption
    · cases h
    · obtain ⟨order, _, h⟩ := Results.bind_eq_ok_iff.1 h
      obtain ⟨g, _, h⟩ := Results.bind_eq_ok_iff.1 h
      cases h
  · intro h
    rw [h]

/-- It has one just where this file names columns of the schema that lay out keys. -/
theorem readSortOrder_eq_ok_some_iff {order : SortOrder} :
    readSortOrder disk dir schema = .ok (some order) ↔
      ∃ names g, disk.readText (sortInfoPath dir) = .ok names
        ∧ SortOrder.ofNames (namesOfList names) schema = .ok order
        ∧ KeyLayout.forTuples order = .ok g := by
  unfold readSortOrder
  constructor
  · intro h
    split at h
    · cases h
    · cases h
    -- the layout is made only to see that it can be
    · next names hnames =>
      obtain ⟨own, hown, h⟩ := Results.bind_eq_ok_iff.1 h
      obtain ⟨g, hg, h⟩ := Results.bind_eq_ok_iff.1 h
      obtain rfl : own = order := Option.some.inj (Except.ok.inj h)
      exact ⟨names, g, hnames, hown, hg⟩
  · rintro ⟨names, g, hnames, hown, hg⟩
    rw [hnames]
    exact Results.bind_eq_ok_iff.2 ⟨order, hown, Results.bind_eq_ok_iff.2 ⟨g, hg, rfl⟩⟩

/-- All that it takes to open a table. -/
theorem openAt_eq_ok_iff {t : Table} :
    openAt disk dir = .ok t ↔
      ∃ text, disk.readText (schemaPath dir) = .ok text ∧ Schema.parse text = .ok t.schema
        ∧ readSortOrder disk dir t.schema = .ok t.sortOrder ∧ t.path = dir := by
  unfold openAt
  constructor
  · intro h
    split at h
    · cases h
    -- the text parses, and then the file of sort columns is read by it
    · next text htext =>
      obtain ⟨schema, hschema, h⟩ := Results.bind_eq_ok_iff.1 h
      obtain ⟨order, horder, h⟩ := Results.bind_eq_ok_iff.1 h
      obtain rfl := Except.ok.inj h
      exact ⟨text, htext, hschema, horder, rfl⟩
  · rintro ⟨text, htext, hschema, horder, rfl⟩
    rw [htext]
    exact Results.bind_eq_ok_iff.2 ⟨t.schema, hschema,
      Results.bind_eq_ok_iff.2 ⟨t.sortOrder, horder, rfl⟩⟩

/-- A directory with schema text and no file of sort columns opens as a table without an order. -/
theorem openAt_of_utf8Bytes {text : String} {file : Nat}
    (hfile : disk.root.find (schemaPath dir) = .ok (.file file))
    (hbytes : disk.bytesOf file = Text.utf8Bytes text) (hschema : Schema.parse text = .ok schema)
    (hnone : disk.readText (sortInfoPath dir) = .error .notFound) :
    openAt disk dir = .ok ⟨dir, schema, none⟩ :=
  openAt_eq_ok_iff.2 ⟨text, Disk.readText_of_bytesOf hfile hbytes, hschema,
    readSortOrder_eq_ok_none_iff.2 hnone, rfl⟩

theorem wellNamed_of_openAt {t : Table} (h : openAt disk dir = .ok t) : t.schema.WellNamed := by
  obtain ⟨_, _, hparse, _⟩ := openAt_eq_ok_iff.1 h
  exact Schema.wellNamed_of_parse hparse

/-- Tables that open have well-named schemas. -/
theorem wellNamed_of_mapM_openAt {paths : List String} {tables : List Table}
    (h : paths.mapM (openAt disk) = .ok tables) : ∀ t ∈ tables, t.schema.WellNamed := by
  intro t ht
  obtain ⟨path, _, hpath⟩ := Results.exists_mem_of_forall₂ (Results.mapM_eq_ok_iff.1 h) ht
  exact wellNamed_of_openAt hpath

end TableScan.Table
