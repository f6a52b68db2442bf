import Mathlib
import TableScan.Table.Engine
import TableScan.Proofs.Projection.Resolved
import TableScan.Proofs.Reader.InTurn
import TableScan.Proofs.Reader.Shares
import TableScan.Proofs.Reader.SortedTables
import TableScan.Proofs.Reader.Through

/-!
# Projected scans

Reading tables through projection text shows what reading all columns shows, projected afterwards.
`Table.widened` are the rows of tables, one table after another, in the columns of the logical
schema.

Nothing is asked of the order of the rows: a merge over tables whose rows are not in the order of
their keys still gives every row once (`exists_delivers_of_queues`).

Main statement: the records through text are the projections of the records through no text, one by
one, merged or not (`readerOf_projected`).
-/

namespace TableScan

/-- A row of a schema with the columns of another one, by name; null under a name that its own
schema lacks. -/
def Schema.widen (logical own : Schema) (row : Record) : Record :=
  logical.names.map fun name => own.valueOf name row

/-- The rows of tables, one table after another, with the columns of a logical schema. -/
def Table.widened (logical : Schema) (tables : List Table) (rows : List (List Record)) :
    List Record :=
  (List.zipWith (fun t rs => rs.map (logical.widen t.schema)) tables rows).flatten

/-- Selecting every column is widening. -/
theorem Projection.ofRow_identity_eq_widen (logical own : Schema) (row : Record) :
    (identity logical).ofRow own row = logical.widen own row := by
  unfold ofRow identity Schema.widen
  rw [List.map_map]
  exact List.map_congr_left fun name _ => Selector.valueIn_column name own row

theorem TableReader.recordsOf_identity (logical : Schema) (tables : List Table)
    (rows : List (List Record)) :
    recordsOf (Projection.identity logical) tables rows = Table.widened logical tables rows := by
  have hrow : (Projection.identity logical).ofRow = logical.widen := by
    funext own row
    exact Projection.ofRow_identity_eq_widen logical own row
  unfold recordsOf Table.widened
  rw [hrow]

theorem Table.sortOrder_of_checkOrder {t : Table} {order : SortOrder}
    (h : checkOrder order t = .ok ()) : t.sortOrder = some order := by
  unfold checkOrder at h
  split at h
  · cases h
  · next own hown =>
    split at h
    · next heq => rw [hown, heq]
    · cases h

/-- Tables that share an order are all sorted by it. -/
theorem Table.sortOrder_of_commonOrder {tables : List Table} {order : SortOrder}
    (h : commonOrder tables = .ok order) : ∀ t ∈ tables, t.sortOrder = some order := by
  cases tables with
  | nil => cases h
  | cons first rest =>
    unfold commonOrder at h
    simp only at h
    cases hfirst : first.sortOrder with
    | none =>
      rw [hfirst] at h
      cases h
    | some own =>
      rw [hfirst] at h
      obtain ⟨_, hrest, horder⟩ := Results.bind_eq_ok_iff.1 h
      obtain rfl : own = order := Except.ok.inj horder
      intro t ht
      rcases List.mem_cons.1 ht with rfl | ht
      · exact hfirst
      · exact sortOrder_of_checkOrder (Results.forall_of_forM_eq_ok hrest t ht)

/-- The records of rows with their keys are the records of the rows. -/
theorem Table.map_ofRow_of_keyedRows {t : Table} {order : SortOrder} {rows : List Record}
    {es : List KeyedRow} (h : t.keyedRows order rows = .ok es) (p : Projection) :
    es.map (fun e => p.ofRow e.schema e.row) = rows.map (p.ofRow t.schema) := by
  obtain ⟨g, _, hes⟩ := Results.bind_eq_ok_iff.1 h
  have hpaired := Results.mapM_eq_ok_iff.1 hes
  clear h hes
  induction hpaired with
  | nil => rfl
  | cons he _ ih =>
    obtain ⟨key, _, rfl⟩ := Results.map_eq_ok_iff.1 he
    rw [List.map_cons, List.map_cons, ih]

namespace TableReader

open RecordReader (Delivers)
open TableCursor (Queue)

variable {disk : Disk} {p : Projection}

/-- A merging reader whose cursors have no row left, and so no record to come. -/
structure Ended (disk : Disk) (p : Projection) (r : TableReader) (records : List Record) :
    Prop where
  sorted : r.sorted = true
  queues : ∃ qs, List.Forall₂ (Queue disk p) r.cursors qs ∧ qs.flatten = []
  nothing : records = []

/-- A reader that has ended stays so: the next call gives no record. -/
theorem next_of_ended {r : TableReader} {records : List Record} (hp : p.SelectsOnce)
    (h : Ended disk p r records) : ∃ r' log,
      (RecordReader.perform disk .next).run r = ⟨.ok records.head?, r', log⟩
        ∧ Ended disk p r' records.tail := by
  obtain ⟨hsorted, ⟨qs, hqueues, hnil⟩, rfl⟩ := h
  rcases next_of_queues hp hsorted hqueues with
    ⟨-, r', hrun, hsorted', hqueues'⟩ | ⟨before, e, q, behind, r', hqs, -⟩
  · exact ⟨r', [], hrun, hsorted', ⟨qs, hqueues', hnil⟩, rfl⟩
  · rw [hqs] at hnil
    simp at hnil

/-- A merging reader delivers every row of its cursors once, in whatever order. -/
theorem exists_delivers_of_queues {r : TableReader} {qs : List (List KeyedRow)}
    (hp : p.SelectsOnce) (hsorted : r.sorted = true)
    (h : List.Forall₂ (Queue disk p) r.cursors qs) :
    ∃ taken : List KeyedRow, taken.Perm qs.flatten
      ∧ Delivers disk r (taken.map fun e => p.ofRow e.schema e.row) := by
  -- on the number of rows to come: every call takes one of them
  induction hn : qs.flatten.length generalizing r qs with
  | zero =>
    have hnil : qs.flatten = [] := List.length_eq_zero_iff.1 hn
    refine ⟨[], by rw [hnil], ?_⟩
    exact RecordReader.delivers_of_step (fun _ _ => next_of_ended hp)
      ⟨hsorted, ⟨qs, h, hnil⟩, rfl⟩
  | succ n ih =>
    rcases next_of_queues hp hsorted h with
      ⟨hnil, -⟩ | ⟨before, e, q, behind, r', rfl, -, -, hrun, hsorted', hqueues'⟩
    · rw [hnil] at hn
      cases hn
    · have hperm : (e :: (before ++ q :: behind).flatten).Perm
          (before ++ (e :: q) :: behind).flatten := by
        simp only [List.flatten_append, List.flatten_cons, List.cons_append]
        exact List.perm_middle.symm
      have hlength : (before ++ q :: behind).flatten.length = n := by
        have hcons := hperm.length_eq
        rw [hn, List.length_cons] at hcons
        omega
      obtain ⟨taken, htaken, hdelivers⟩ := ih hsorted' hqueues' hlength
      exact ⟨e :: taken, (htaken.cons e).trans hperm, hdelivers.cons hrun⟩

/-- Tables that are sorted by one order and hold rows open merged, and their reader delivers the
records of all rows. -/
theorem exists_delivers_of_sortOrder {tables : List Table} {rows : List (List Record)}
    {order : SortOrder} {logical : Schema} {text : String}
    (hopen : ∀ t ∈ tables, ∃ path, Table.openAt disk path = .ok t)
    (horder : ∀ t ∈ tables, t.sortOrder = some order)
    (hrows : List.Forall₂ (Table.HoldsRows disk) tables rows)
    (hunion : Schema.unionOf (tables.map Table.schema) = .ok logical)
    (hp : Projection.parse logical text = .ok p) :
    ∃ r records, ofTables disk tables (some order) text = .ok r ∧ r.schema = p.schema
      ∧ Delivers disk r records ∧ records.Perm (recordsOf p tables rows) := by
  obtain ⟨cursors, keyed, hcursors, hkeyed, hqueues⟩ :=
    exists_queues_of_holdsRows p hopen horder hrows
  let r : TableReader := ⟨p.schema, true, cursors⟩
  obtain ⟨taken, hperm, hdelivers⟩ :=
    exists_delivers_of_queues (r := r) (Projection.selectsOnce_of_parse hp hunion) rfl
      (show List.Forall₂ _ r.cursors keyed from hqueues)
  refine ⟨r, _, ofTables_eq_ok_iff.2 ⟨logical, p, cursors, hunion, hp, hcursors, rfl⟩, rfl,
    hdelivers, ?_⟩
  have hrecords : keyed.flatten.map (fun e => p.ofRow e.schema e.row)
      = recordsOf p tables rows := by
    clear hcursors hqueues hperm hdelivers hunion hopen horder
    induction hrows generalizing keyed with
    | nil =>
      cases hkeyed
      rfl
    | @cons t rs tables rows _ _ ih =>
      cases hkeyed with
      | cons hes hkeyed =>
        rw [List.flatten_cons, List.map_append, Table.map_ofRow_of_keyedRows hes, ih _ hkeyed,
          recordsOf_cons]
  rw [← hrecords]
  exact hperm.map _

end TableReader

namespace StorageEngine

open RecordReader (Delivers)

variable {disk : Disk} {paths : List String} {sorted : Bool} {tables : List Table}
  {rows : List (List Record)} {logical : Schema} {text : String} {p : Projection}

/-- The order by which tables are merged, if they are to be. -/
def orderOf (tables : List Table) (sorted : Bool) : LoadResult (Option SortOrder) :=
  if sorted then (Table.commonOrder tables).map some else .ok none

theorem readerOf_eq_ofTables {order : Option SortOrder} (hne : paths ≠ [])
    (hopen : paths.mapM (Table.openAt disk) = .ok tables)
    (horder : orderOf tables sorted = .ok order) (text : String) :
    readerOf disk paths sorted text = TableReader.ofTables disk tables order text := by
  have htables : tablesAt disk paths = .ok tables := by
    unfold tablesAt
    rw [if_neg (by simpa using hne)]
    exact hopen
  have hreader : readerOf disk paths sorted text = (orderOf tables sorted >>= fun order =>
      TableReader.ofTables disk tables order text) := by
    unfold readerOf orderOf
    rw [htables]
    cases sorted with
    | true => rfl
    | false => rfl
  rw [hreader, horder]
  rfl

/-- Tables that open, hold rows and share an order if they are to be merged are read as the records
of all their rows; without an order these come one table after another. -/
theorem exists_delivers_of_orderOf {order : Option SortOrder}
    (hopen : paths.mapM (Table.openAt disk) = .ok tables)
    (horder : orderOf tables sorted = .ok order)
    (hrows : List.Forall₂ (Table.HoldsRows disk) tables rows)
    (hunion : Schema.unionOf (tables.map Table.schema) = .ok logical)
    (hp : Projection.parse logical text = .ok p) :
    ∃ r records, TableReader.ofTables disk tables order text = .ok r ∧ r.schema = p.schema
      ∧ Delivers disk r records ∧ records.Perm (TableReader.recordsOf p tables rows)
      ∧ (sorted = false → records = TableReader.recordsOf p tables rows) := by
  cases sorted with
  | false =>
    obtain rfl : none = order := Except.ok.inj horder
    obtain ⟨r, hr, hschema, hdelivers⟩ :=
      TableReader.exists_delivers_of_holdsRows hrows hunion hp
    exact ⟨r, _, hr, hschema, hdelivers, .refl _, fun _ => rfl⟩
  | true =>
    obtain ⟨common, hcommon, rfl⟩ := Results.map_eq_ok_iff.1 horder
    have hpaths : ∀ t ∈ tables, ∃ path, Table.openAt disk path = .ok t := by
      intro t ht
      obtain ⟨path, _, hpath⟩ :=
        Results.exists_mem_of_forall₂ (Results.mapM_eq_ok_iff.1 hopen) ht
      exact ⟨path, hpath⟩
    obtain ⟨r, records, hr, hschema, hdelivers, hperm⟩ :=
      TableReader.exists_delivers_of_sortOrder hpaths (Table.sortOrder_of_commonOrder hcommon)
        hrows hunion hp
    exact ⟨r, records, hr, hschema, hdelivers, hperm, fun h => by cases h⟩

/-- Reading tables through text is reading all their columns and projecting the records afterwards,
one by one: field by field, the value under the name of the selector in the logical schema, narrowed
to its keys. This holds merged or not, and for seeks as well. All columns show every row once,
widened to the logical schema, and without a merge they show the rows one table after another. -/
theorem readerOf_projected (hne : paths ≠ [])
    (hopen : paths.mapM (Table.openAt disk) = .ok tables)
    (hmerge : sorted = true → ∃ order, Table.commonOrder tables = .ok order)
    (hrows : List.Forall₂ (Table.HoldsRows disk) tables rows)
    (hunion : Schema.unionOf (tables.map Table.schema) = .ok logical)
    (hp : Projection.parse logical text = .ok p) :
    ∃ whole r full, readerOf disk paths sorted "" = .ok whole ∧ whole.schema = logical
      ∧ readerOf disk paths sorted text = .ok r ∧ r.schema = p.schema ∧ p.ResolvesIn logical
      ∧ Delivers disk whole full ∧ Delivers disk r (full.map (p.ofRow logical))
      ∧ (∀ calls, RecordReader.answers disk r calls
        = (RecordReader.answers disk whole calls).map (Except.map (Option.map (p.ofRow logical))))
      ∧ full.Perm (Table.widened logical tables rows)
      ∧ (sorted = false → full = Table.widened logical tables rows) := by
  obtain ⟨order, horder⟩ : ∃ order, orderOf tables sorted = .ok order := by
    cases sorted with
    | false => exact ⟨none, rfl⟩
    | true =>
      obtain ⟨order, hcommon⟩ := hmerge rfl
      exact ⟨some order, Results.map_eq_ok_iff.2 ⟨order, hcommon, rfl⟩⟩
  have hdistinct : logical.NamesDistinct :=
    (Schema.wellNamed_of_unionOf hunion (by
      intro s hs
      obtain ⟨t, ht, rfl⟩ := List.mem_map.1 hs
      exact Table.wellNamed_of_mapM_openAt hopen t ht)).distinct
  have hidentity : Projection.parse logical "" = .ok (Projection.identity logical) := rfl
  have hresolves : p.ResolvesIn logical := Projection.resolvesIn_of_parse hp hdistinct
  have honce := (Projection.identity_resolvesIn hdistinct).selectsOnce
  have hof : ∀ own row, p.ofRow own row
      = p.ofRow logical ((Projection.identity logical).ofRow own row) :=
    Projection.ofRow_identity fun selector hselector => hresolves.mem_names hselector
  obtain ⟨whole, full, hwhole, hschema, hdelivers, hperm, hinturn⟩ :=
    exists_delivers_of_orderOf hopen horder hrows hunion hidentity
  -- the reader through text is the one of all columns with other columns
  obtain ⟨hown, hr⟩ := TableReader.ofTables_through hwhole hunion hidentity hp
  have hanswers : ∀ calls, RecordReader.answers disk (whole.through p) calls
      = (RecordReader.answers disk whole calls).map
        (Except.map (Option.map (p.ofRow logical))) := by
    intro calls
    have hthrough := TableReader.answers_through disk hresolves.selectsOnce honce hof whole calls
    rwa [hown] at hthrough
  have hprojected : Delivers disk (whole.through p) (full.map (p.ofRow logical)) := by
    intro n
    rw [hanswers, hdelivers n, List.map_map]
    refine List.map_congr_left fun i _ => ?_
    rw [List.getElem?_map]
    rfl
  rw [TableReader.recordsOf_identity] at hperm hinturn
  refine ⟨whole, whole.through p, full, ?_, hschema, ?_, rfl, hresolves, hdelivers, hprojected,
    hanswers, hperm, hinturn⟩
  · rw [readerOf_eq_ofTables hne hopen horder]
    exact hwhole
  · rw [readerOf_eq_ofTables hne hopen horder]
    exact hr

/-- Two tables of which one has no values: the records through the values alone are the second
fields of the records through all columns. -/
theorem readerOf_projected_unevenTables :
    ∃ whole r, readerOf unevenTables ["a", "b"] false "" = .ok whole
      ∧ readerOf unevenTables ["a", "b"] false "v" = .ok r
      ∧ Delivers unevenTables whole [[.int 1, .null], [.int 2, .int 5]]
      ∧ Delivers unevenTables r [[.null], [.int 5]] := by
  obtain ⟨-, -, hopen⟩ := input_unevenTables
  have hunion : Schema.unionOf [⟨[⟨"id", .primitive .int⟩]⟩,
      ⟨[⟨"id", .primitive .int⟩, ⟨"v", .primitive .int⟩]⟩]
      = .ok ⟨[⟨"id", .primitive .int⟩, ⟨"v", .primitive .int⟩]⟩ := rfl
  have hp : Projection.parse ⟨[⟨"id", .primitive .int⟩, ⟨"v", .primitive .int⟩]⟩ "v"
      = .ok ⟨[⟨"v", []⟩], ⟨[⟨"v", .primitive .int⟩]⟩⟩ := by cbv
  have hmerge : false = true → ∃ order, Table.commonOrder
      [⟨"a", ⟨[⟨"id", .primitive .int⟩]⟩, none⟩,
        ⟨"b", ⟨[⟨"id", .primitive .int⟩, ⟨"v", .primitive .int⟩]⟩, none⟩] = .ok order :=
    fun h => by cases h
  obtain ⟨whole, r, full, hwhole, -, hr, -, -, hdelivers, hprojected, -, -, hinturn⟩ :=
    readerOf_projected (List.cons_ne_nil _ _) hopen hmerge holdsRows_unevenTables hunion hp
  obtain rfl : full = [[.int 1, .null], [.int 2, .int 5]] := (hinturn rfl).trans rfl
  exact ⟨whole, r, hwhole, hr, hdelivers, hprojected⟩

end StorageEngine

end TableScan
