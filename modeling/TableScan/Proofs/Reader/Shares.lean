import Mathlib
import TableScan.Proofs.Projection.Resolved
import TableScan.Proofs.Reader.InTurn
import TableScan.Table.Engine

/-!
# Reading an input in shares

An input that is not merged by key is shared out table by table. The reader of the whole input
resolves projection text against the union of all schemas, the reader of a share against the schema
of its own table. `SharesAgree` says that nobody can tell: the shares open with the schema of the
whole input, and their records one after another are those of the input.

Main statement: the shares agree with the input just when every table has the columns that the text
selects and, for text that selects none, the schema of all tables together (`sharesAgree_iff`).
-/

namespace TableScan.StorageEngine

open RecordReader (Delivers)

variable {disk : Disk} {settings : Settings} {paths : List String} {tables : List Table}
  {text : String}

/-- Every share of an input opens with the schema of the whole, and the records of the shares, in
their order, are those of the whole. -/
def SharesAgree (disk : Disk) (settings : Settings) (text : String) : Prop :=
  ∃ whole shares readers,
    (ofDisk disk).openInput settings text = .ok whole
    ∧ (ofDisk disk).shares settings = .ok shares
    ∧ shares.mapM (fun share => (ofDisk disk).openShare settings share text) = .ok readers
    ∧ (∀ r ∈ readers, r.schema = whole.schema)
    ∧ ∃ records, List.Forall₂ (Delivers disk) readers records ∧ Delivers disk whole records.flatten

/-! ## Opening without an order -/

theorem readerOf_eq_ok_iff {r : TableReader} :
    readerOf disk paths false text = .ok r ↔ paths ≠ [] ∧ ∃ tables,
      paths.mapM (Table.openAt disk) = .ok tables
        ∧ TableReader.ofTables disk tables none text = .ok r := by
  unfold readerOf tablesAt
  rw [Results.bind_eq_ok_iff]
  cases paths with
  | nil =>
    constructor
    · rintro ⟨tables, h, _⟩
      cases h
    · rintro ⟨hne, _⟩
      exact absurd rfl hne
  | cons path paths =>
    constructor
    · rintro ⟨tables, hopen, h⟩
      exact ⟨List.cons_ne_nil _ _, tables, hopen, h⟩
    · rintro ⟨-, tables, hopen, h⟩
      exact ⟨tables, hopen, h⟩

theorem openInput_eq_readerOf (hpaths : settings.tablePaths = .ok paths)
    (hunsorted : wantsSorted settings = false) :
    (ofDisk disk).openInput settings text = readerOf disk paths false text := by
  show (settings.tablePaths >>= fun paths => readerOf disk paths (wantsSorted settings) text) = _
  rw [hpaths, hunsorted]
  rfl

/-- The shares are the tables, one by one. -/
theorem shares_eq_ok_iff (hpaths : settings.tablePaths = .ok paths)
    (hunsorted : wantsSorted settings = false) {shares : List InputShare} :
    (ofDisk disk).shares settings = .ok shares ↔
      paths ≠ [] ∧ shares = paths.mapIdx fun index path => ⟨index, [path]⟩ := by
  show sharesOf settings = _ ↔ _
  unfold sharesOf
  rw [hpaths, Results.bind_eq_ok_iff]
  constructor
  · rintro ⟨_, heq, h⟩
    obtain rfl := Except.ok.inj heq
    cases paths with
    | nil => cases h
    | cons path paths =>
      rw [hunsorted] at h
      exact ⟨List.cons_ne_nil _ _, (Except.ok.inj h).symm⟩
  · rintro ⟨hne, rfl⟩
    refine ⟨paths, rfl, ?_⟩
    rw [List.isEmpty_eq_false_iff.2 hne, hunsorted]
    rfl

theorem mapM_openShare_eq (hunsorted : wantsSorted settings = false) :
    (paths.mapIdx fun index path => (⟨index, [path]⟩ : InputShare)).mapM
        (fun share => (ofDisk disk).openShare settings share text)
      = paths.mapM fun path => readerOf disk [path] false text := by
  refine Results.mapM_mapIdx (fun index path => ?_) paths
  show readerOf disk [path] (wantsSorted settings) text = _
  rw [hunsorted]

/-! ## One share -/

/-- The reader of one table has the schema that the text makes of the table's own one. -/
theorem parse_of_readerOf_singleton {path : String} {t : Table} {r : TableReader}
    (ht : Table.openAt disk path = .ok t) (h : readerOf disk [path] false text = .ok r) :
    ∃ q, Projection.parse t.schema text = .ok q ∧ r.schema = q.schema := by
  -- the one table is its own union
  obtain ⟨-, tables, htables, hr⟩ := readerOf_eq_ok_iff.1 h
  have hopen : [path].mapM (Table.openAt disk) = .ok [t] := Results.mapM_eq_ok_iff.2 (.cons ht .nil)
  obtain rfl : tables = [t] := Except.ok.inj (htables.symm.trans hopen)
  obtain ⟨logical, q, cursors, hunion, hq, -, rfl⟩ := TableReader.ofTables_eq_ok_iff.1 hr
  have hown := Schema.unionOf_singleton (Table.wellNamed_of_openAt ht).distinct
  obtain rfl : logical = t.schema := Except.ok.inj (hunion.symm.trans hown)
  exact ⟨q, hq, rfl⟩

/-- Where the text makes one projection of every table's schema, the shares deliver together what
the tables in turn deliver through it. -/
theorem exists_readers_of_parse {p : Projection} {rows : List (List Record)}
    (hopen : List.Forall₂ (fun path t => Table.openAt disk path = .ok t) paths tables)
    (hrows : List.Forall₂ (Table.HoldsRows disk) tables rows)
    (hparse : ∀ t ∈ tables, Projection.parse t.schema text = .ok p) :
    ∃ readers records,
      List.Forall₂ (fun path r => readerOf disk [path] false text = .ok r) paths readers
      ∧ (∀ r ∈ readers, r.schema = p.schema)
      ∧ List.Forall₂ (Delivers disk) readers records
      ∧ records.flatten = TableReader.recordsOf p tables rows := by
  induction hopen generalizing rows with
  | nil =>
    cases hrows
    exact ⟨[], [], .nil, fun r hr => absurd hr List.not_mem_nil, .nil, rfl⟩
  | @cons path t paths tables ht _ ih =>
    cases hrows with
    | @cons _ rs _ rows hrow hrows =>
      obtain ⟨readers, records, hreaders, hschemas, hdeliver, hflatten⟩ :=
        ih hrows fun t' ht' => hparse t' (List.mem_cons_of_mem _ ht')
      have hunion : Schema.unionOf ([t].map Table.schema) = .ok t.schema :=
        Schema.unionOf_singleton (Table.wellNamed_of_openAt ht).distinct
      obtain ⟨r, hr, hschema, hown⟩ := TableReader.exists_delivers_of_holdsRows
        (.cons hrow .nil) hunion (hparse t List.mem_cons_self)
      have hreader : readerOf disk [path] false text = .ok r :=
        readerOf_eq_ok_iff.2 ⟨List.cons_ne_nil _ _, [t],
          Results.mapM_eq_ok_iff.2 (.cons ht .nil), hr⟩
      refine ⟨r :: readers, TableReader.recordsOf p [t] [rs] :: records, .cons hreader hreaders,
        ?_, .cons hown hdeliver, ?_⟩
      · rw [List.forall_mem_cons]
        exact ⟨hschema, hschemas⟩
      · rw [List.flatten_cons, hflatten, TableReader.recordsOf_cons, TableReader.recordsOf_cons,
          List.append_assoc]
        rfl

/-! ## All shares -/

/-- Shares that agree with the input open through what the text makes of the schema of their table,
and that is what it makes of the schema of all tables. -/
theorem parse_of_sharesAgree {logical : Schema} {p : Projection}
    (hpaths : settings.tablePaths = .ok paths) (hunsorted : wantsSorted settings = false)
    (hopen : paths.mapM (Table.openAt disk) = .ok tables)
    (hunion : Schema.unionOf (tables.map Table.schema) = .ok logical)
    (hp : Projection.parse logical text = .ok p) (h : SharesAgree disk settings text) :
    tables ≠ [] ∧ ∀ t ∈ tables, ∃ q, Projection.parse t.schema text = .ok q
      ∧ q.schema = p.schema := by
  obtain ⟨whole, shares, readers, hwhole, hshares, hreaders, hschemas, -⟩ := h
  obtain ⟨hne, rfl⟩ := (shares_eq_ok_iff hpaths hunsorted).1 hshares
  rw [mapM_openShare_eq hunsorted] at hreaders
  rw [openInput_eq_readerOf hpaths hunsorted] at hwhole
  -- opening has one outcome, so the reader of the whole is the one of these tables
  obtain ⟨-, tables', hopen', hwhole⟩ := readerOf_eq_ok_iff.1 hwhole
  obtain rfl : tables' = tables := Except.ok.inj (hopen'.symm.trans hopen)
  obtain ⟨logical', p', cursors, hunion', hp', -, rfl⟩ := TableReader.ofTables_eq_ok_iff.1 hwhole
  obtain rfl : logical' = logical := Except.ok.inj (hunion'.symm.trans hunion)
  obtain rfl : p' = p := Except.ok.inj (hp'.symm.trans hp)
  have hopened := Results.mapM_eq_ok_iff.1 hopen
  refine ⟨?_, fun t ht => ?_⟩
  · rintro rfl
    exact hne (List.forall₂_nil_right_iff.1 hopened)
  -- the table at place `i` is the only one of the share at place `i`
  · obtain ⟨i, hi⟩ := List.mem_iff_getElem?.1 ht
    obtain ⟨path, hpath, hpathOpen⟩ := Results.exists_getElem?_of_forall₂ hopened.flip hi
    obtain ⟨r, hr, hreader⟩ :=
      Results.exists_getElem?_of_forall₂ (Results.mapM_eq_ok_iff.1 hreaders) hpath
    obtain ⟨q, hq, hschema⟩ := parse_of_readerOf_singleton hpathOpen hreader
    exact ⟨q, hq, hschema.symm.trans (hschemas r (List.mem_of_getElem? hr))⟩

/-- Reading an unmerged input in shares is reading the whole just when no table lacks a column that
the text selects; text that selects none stands for the whole schema, and then every table must have
the schema of all. -/
theorem sharesAgree_iff {logical : Schema} {selectors : List Selector} {p : Projection}
    {rows : List (List Record)}
    (hpaths : settings.tablePaths = .ok paths) (hunsorted : wantsSorted settings = false)
    (hopen : paths.mapM (Table.openAt disk) = .ok tables)
    (hunion : Schema.unionOf (tables.map Table.schema) = .ok logical)
    (hrows : List.Forall₂ (Table.HoldsRows disk) tables rows)
    (hselectors : Selector.parseAll text = .ok selectors)
    (hp : Projection.parse logical text = .ok p) :
    SharesAgree disk settings text ↔
      tables ≠ [] ∧ ∀ t ∈ tables, (selectors = [] → t.schema = logical)
        ∧ ∀ selector ∈ selectors, selector.name ∈ t.schema.names := by
  have hwell := Table.wellNamed_of_mapM_openAt hopen
  constructor
  -- an equal schema of a share shows that its table has every selected column
  · intro h
    obtain ⟨hne, hparse⟩ := parse_of_sharesAgree hpaths hunsorted hopen hunion hp h
    refine ⟨hne, fun t ht => ?_⟩
    obtain ⟨q, hq, hschema⟩ := hparse t ht
    exact Projection.names_of_parse_part hselectors hp hq hschema
  -- the text then makes the same projection of every table as of all of them, and the readers
  -- can be built
  · rintro ⟨hne, hall⟩
    have hparse : ∀ t ∈ tables, Projection.parse t.schema text = .ok p := by
      intro t ht
      refine Projection.parse_part_eq_ok hselectors hp (fun c hc => ?_) (hall t ht).1 (hall t ht).2
      refine Schema.find?_of_unionOf hunion ?_ (List.mem_map_of_mem ht) hc
      intro s hs
      obtain ⟨t', ht', rfl⟩ := List.mem_map.1 hs
      exact hwell t' ht'
    have hopened := Results.mapM_eq_ok_iff.1 hopen
    have hnepaths : paths ≠ [] := by
      rintro rfl
      exact hne (List.forall₂_nil_left_iff.1 hopened)
    obtain ⟨whole, hwhole, hschema, hdelivers⟩ :=
      TableReader.exists_delivers_of_holdsRows hrows hunion hp
    obtain ⟨readers, records, hreaders, hschemas, hdeliver, hflatten⟩ :=
      exists_readers_of_parse hopened hrows hparse
    refine ⟨whole, _, readers, ?_, (shares_eq_ok_iff hpaths hunsorted).2 ⟨hnepaths, rfl⟩, ?_, ?_,
      records, hdeliver, ?_⟩
    · rw [openInput_eq_readerOf hpaths hunsorted]
      exact readerOf_eq_ok_iff.2 ⟨hnepaths, tables, hopen, hwhole⟩
    · rw [mapM_openShare_eq hunsorted]
      exact Results.mapM_eq_ok_iff.2 hreaders
    · intro r hr
      rw [hschemas r hr, hschema]
    · rw [hflatten]
      exact hdelivers

/-- A disk with a table `a` of numbers and a table `b` of numbers with values, a row in each. -/
def unevenTables : Disk where
  root := .dir [
    ("a", .dir [(".schema", .file 0), ("records.dat", .file 1)]),
    ("b", .dir [(".schema", .file 2), ("records.dat", .file 3)])]
  contents := [Text.utf8Bytes "id:int", Table.Frame.around (Text.utf8Bytes "[1]"),
    Text.utf8Bytes "id:int,v:int", Table.Frame.around (Text.utf8Bytes "[2,5]")]

theorem input_unevenTables :
    (Settings.empty.withTables ["a", "b"]).tablePaths = .ok ["a", "b"]
      ∧ wantsSorted (Settings.empty.withTables ["a", "b"]) = false
      ∧ ["a", "b"].mapM (Table.openAt unevenTables) = .ok
        [⟨"a", ⟨[⟨"id", .primitive .int⟩]⟩, none⟩,
          ⟨"b", ⟨[⟨"id", .primitive .int⟩, ⟨"v", .primitive .int⟩]⟩, none⟩] := by
  refine ⟨by cbv, by cbv, Results.mapM_eq_ok_iff.2 (.cons ?_ (.cons ?_ .nil))⟩
  · have htext : unevenTables.bytesOf 0 = Text.utf8Bytes "id:int" := by
      simp [unevenTables, Disk.bytesOf]
    have hfile : unevenTables.root.find (Table.schemaPath "a") = .ok (.file 0) := rfl
    exact Table.openAt_of_utf8Bytes hfile htext (by cbv) rfl
  · have htext : unevenTables.bytesOf 2 = Text.utf8Bytes "id:int,v:int" := by
      simp [unevenTables, Disk.bytesOf]
    have hfile : unevenTables.root.find (Table.schemaPath "b") = .ok (.file 2) := rfl
    exact Table.openAt_of_utf8Bytes hfile htext (by cbv) rfl

theorem holdsRows_unevenTables :
    List.Forall₂ (Table.HoldsRows unevenTables)
      [⟨"a", ⟨[⟨"id", .primitive .int⟩]⟩, none⟩,
        ⟨"b", ⟨[⟨"id", .primitive .int⟩, ⟨"v", .primitive .int⟩]⟩, none⟩]
      [[[.int 1]], [[.int 2, .int 5]]] := by
  have hfilea : unevenTables.root.find (Table.rowFilePath "a") = .ok (.file 1) := rfl
  have hfileb : unevenTables.root.find (Table.rowFilePath "b") = .ok (.file 3) := rfl
  refine .cons ⟨1, hfilea, ?_⟩ (.cons ⟨3, hfileb, ?_⟩ .nil)
  · have hbytes : unevenTables.bytesOf 1
        = Table.Frame.around (Text.utf8Bytes "[1]") ++ [] := by
      simp [unevenTables, Disk.bytesOf]
    have hpayload : Json.parse? "[1]" = some (.array [.number (.int 1)]) := by cbv
    rw [hbytes]
    exact .cons_text (by decide) hpayload rfl (.nil _)
  · have hbytes : unevenTables.bytesOf 3
        = Table.Frame.around (Text.utf8Bytes "[2,5]") ++ [] := by
      simp [unevenTables, Disk.bytesOf]
    have hpayload : Json.parse? "[2,5]"
        = some (.array [.number (.int 2), .number (.int 5)]) := by cbv
    rw [hbytes]
    exact .cons_text (by decide) hpayload rfl (.nil _)

/-- Both tables have numbers, so the shares agree on them. -/
theorem sharesAgree_numbers :
    SharesAgree unevenTables (Settings.empty.withTables ["a", "b"]) "id" := by
  obtain ⟨hpaths, hunsorted, hopen⟩ := input_unevenTables
  have hunion : Schema.unionOf [⟨[⟨"id", .primitive .int⟩]⟩,
      ⟨[⟨"id", .primitive .int⟩, ⟨"v", .primitive .int⟩]⟩]
      = .ok ⟨[⟨"id", .primitive .int⟩, ⟨"v", .primitive .int⟩]⟩ := rfl
  have hselectors : Selector.parseAll "id" = .ok [⟨"id", []⟩] := by cbv
  have hp : Projection.parse ⟨[⟨"id", .primitive .int⟩, ⟨"v", .primitive .int⟩]⟩ "id"
      = .ok ⟨[⟨"id", []⟩], ⟨[⟨"id", .primitive .int⟩]⟩⟩ := by
    rw [Projection.parse, hselectors]
    rfl
  refine (sharesAgree_iff hpaths hunsorted hopen hunion holdsRows_unevenTables hselectors hp).2
    ⟨List.cons_ne_nil _ _, ?_⟩
  simp only [List.forall_mem_cons]
  decide

/-- The table `a` has no values: the whole input, which opens, holds rows and has a schema that the
text resolves against, shows them as null, and the share of `a` does not open. -/
theorem not_sharesAgree_values :
    (Settings.empty.withTables ["a", "b"]).tablePaths = .ok ["a", "b"]
      ∧ wantsSorted (Settings.empty.withTables ["a", "b"]) = false
      ∧ ["a", "b"].mapM (Table.openAt unevenTables) = .ok
        [⟨"a", ⟨[⟨"id", .primitive .int⟩]⟩, none⟩,
          ⟨"b", ⟨[⟨"id", .primitive .int⟩, ⟨"v", .primitive .int⟩]⟩, none⟩]
      ∧ Schema.unionOf [⟨[⟨"id", .primitive .int⟩]⟩,
          ⟨[⟨"id", .primitive .int⟩, ⟨"v", .primitive .int⟩]⟩]
        = .ok ⟨[⟨"id", .primitive .int⟩, ⟨"v", .primitive .int⟩]⟩
      ∧ List.Forall₂ (Table.HoldsRows unevenTables)
        [⟨"a", ⟨[⟨"id", .primitive .int⟩]⟩, none⟩,
          ⟨"b", ⟨[⟨"id", .primitive .int⟩, ⟨"v", .primitive .int⟩]⟩, none⟩]
        [[[.int 1]], [[.int 2, .int 5]]]
      ∧ Projection.parse ⟨[⟨"id", .primitive .int⟩, ⟨"v", .primitive .int⟩]⟩ "v"
        = .ok ⟨[⟨"v", []⟩], ⟨[⟨"v", .primitive .int⟩]⟩⟩
      ∧ ¬ SharesAgree unevenTables (Settings.empty.withTables ["a", "b"]) "v" := by
  obtain ⟨hpaths, hunsorted, hopen⟩ := input_unevenTables
  have hunion : Schema.unionOf [⟨[⟨"id", .primitive .int⟩]⟩,
      ⟨[⟨"id", .primitive .int⟩, ⟨"v", .primitive .int⟩]⟩]
      = .ok ⟨[⟨"id", .primitive .int⟩, ⟨"v", .primitive .int⟩]⟩ := rfl
  have hselectors : Selector.parseAll "v" = .ok [⟨"v", []⟩] := by cbv
  have hp : Projection.parse ⟨[⟨"id", .primitive .int⟩, ⟨"v", .primitive .int⟩]⟩ "v"
      = .ok ⟨[⟨"v", []⟩], ⟨[⟨"v", .primitive .int⟩]⟩⟩ := by
    rw [Projection.parse, hselectors]
    rfl
  refine ⟨hpaths, hunsorted, hopen, hunion, holdsRows_unevenTables, hp, fun h => ?_⟩
  -- shares that agree would open, and the text does not resolve against the schema of `a`
  obtain ⟨-, hparse⟩ := parse_of_sharesAgree hpaths hunsorted hopen hunion hp h
  obtain ⟨q, hq, -⟩ := hparse _ List.mem_cons_self
  rw [Projection.parse, hselectors] at hq
  cases hq

end TableScan.StorageEngine
