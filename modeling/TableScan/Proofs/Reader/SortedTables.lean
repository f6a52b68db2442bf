import Mathlib
import TableScan.Proofs.Reader.Merge

/-!
# Readers of sorted tables

What opening sorted tables gives: a reader that merges all their rows. Main statement: tables that
share a sort order, and each hold their rows in it, are read as one sorted list of all rows
(`answers_of_sorted_tables`).
-/

namespace TableScan.TableReader

open KeyedRow (Ascending sortByKey)
open TableCursor (Queue)

variable {disk : Disk}

/-- The cursors of sorted tables that hold rows, and the rows that they have to give. -/
theorem exists_queues_of_holdsRows {tables : List Table} {order : SortOrder}
    {rows : List (List Record)} (p : Projection)
    (hopen : ∀ t ∈ tables, ∃ path, Table.openAt disk path = .ok t)
    (horder : ∀ t ∈ tables, t.sortOrder = some order)
    (hrows : List.Forall₂ (Table.HoldsRows disk) tables rows) :
    ∃ cursors keyed, tables.mapM (TableCursor.openTable disk p (some order)) = .ok cursors
      ∧ List.Forall₂ (fun tr es => Table.keyedRows order tr.1 tr.2 = .ok es)
        (tables.zip rows) keyed
      ∧ List.Forall₂ (Queue disk p) cursors keyed := by
  induction hrows with
  | nil => exact ⟨[], [], rfl, .nil, .nil⟩
  | @cons t rs tables rows hrow _ ih =>
    obtain ⟨path, hpath⟩ := hopen t List.mem_cons_self
    obtain ⟨s, es, hs, hes, hqueue⟩ :=
      TableCursor.exists_queue_of_holdsRows p hpath (horder t List.mem_cons_self) hrow
    obtain ⟨cursors, keyed, hcursors, hkeyed, hqueues⟩ :=
      ih (fun t ht => hopen t (List.mem_cons_of_mem _ ht))
        (fun t ht => horder t (List.mem_cons_of_mem _ ht))
    exact ⟨s :: cursors, es :: keyed,
      Results.mapM_eq_ok_iff.2 (.cons hs (Results.mapM_eq_ok_iff.1 hcursors)),
      .cons hes hkeyed, .cons hqueue hqueues⟩

/-- Tables that share a sort order, whose row files decode and hold rows in ascending order of their
keys, are read as one list of rows that is sorted by key: rows of one key come in the order of the
tables, and of one table in the order of its file. This holds for every sequence of calls. -/
theorem answers_of_sorted_tables {disk : Disk} {paths : List String} {tables : List Table}
    {order : SortOrder} {rows : List (List Record)} {logical : Schema} {text : String}
    {p : Projection} (hopen : paths.mapM (Table.openAt disk) = .ok tables)
    (horder : ∀ t ∈ tables, t.sortOrder = some order)
    (hrows : List.Forall₂ (Table.HoldsRows disk) tables rows)
    (hascending : ∀ tr ∈ tables.zip rows, ∀ es, Table.keyedRows order tr.1 tr.2 = .ok es →
      Ascending es)
    (hunion : Schema.unionOf (tables.map Table.schema) = .ok logical)
    (hp : Projection.parse logical text = .ok p) :
    ∃ r keyed, ofTables disk tables (some order) text = .ok r ∧ r.schema = p.schema
      ∧ (tables.zip rows).mapM (fun tr => Table.keyedRows order tr.1 tr.2) = .ok keyed
      ∧ ∀ calls, RecordReader.answers disk r calls
          = (KeyedRow.answers p (sortByKey keyed.flatten) calls).map .ok := by
  have hpaths : ∀ t ∈ tables, ∃ path, Table.openAt disk path = .ok t := by
    intro t ht
    obtain ⟨path, _, hpath⟩ := Results.exists_mem_of_forall₂ (Results.mapM_eq_ok_iff.1 hopen) ht
    exact ⟨path, hpath⟩
  -- a freshly opened cursor has all rows of its table to give
  obtain ⟨cursors, keyed, hcursors, hkeyed, hqueues⟩ :=
    exists_queues_of_holdsRows p hpaths horder hrows
  have hall : ∀ q ∈ keyed, Ascending q := by
    intro q hq
    obtain ⟨tr, htr, hes⟩ := Results.exists_mem_of_forall₂ hkeyed hq
    exact hascending tr htr q hes
  refine ⟨⟨p.schema, true, cursors⟩, keyed, ?_, rfl, Results.mapM_eq_ok_iff.2 hkeyed, ?_⟩
  · exact ofTables_eq_ok_iff.2 ⟨logical, p, cursors, hunion, hp, hcursors, rfl⟩
  · have hmerges : Merges disk p ⟨p.schema, true, cursors⟩ (sortByKey keyed.flatten) :=
      ⟨rfl, Projection.selectsOnce_of_parse hp hunion, keyed, hqueues, hall, rfl⟩
    exact answers_of_merges hmerges

/-- A disk with two tables of numbered texts, sorted by number: `a` holds the number 1, and `b` the
numbers 0 and 1. -/
def numberedTables : Disk where
  root := .dir [
    ("a", .dir [(".schema", .file 0), (".sortinfo", .file 1), ("records.dat", .file 2)]),
    ("b", .dir [(".schema", .file 0), (".sortinfo", .file 1), ("records.dat", .file 3)])]
  contents := [Text.utf8Bytes "n:int,s:string", Text.utf8Bytes "n",
    Table.Frame.around (Text.utf8Bytes "[1,\"x\"]"),
    Table.Frame.around (Text.utf8Bytes "[0,\"y\"]")
      ++ Table.Frame.around (Text.utf8Bytes "[1,\"z\"]")]

theorem mapM_openAt_numberedTables :
    ["a", "b"].mapM (Table.openAt numberedTables)
      = .ok [⟨"a", ⟨[⟨"n", .primitive .int⟩, ⟨"s", .primitive .string⟩]⟩,
            some ⟨⟨[⟨"n", .primitive .int⟩]⟩⟩⟩,
          ⟨"b", ⟨[⟨"n", .primitive .int⟩, ⟨"s", .primitive .string⟩]⟩,
            some ⟨⟨[⟨"n", .primitive .int⟩]⟩⟩⟩] := by
  have htext : numberedTables.bytesOf 0 = Text.utf8Bytes "n:int,s:string" := by
    simp [numberedTables, Disk.bytesOf]
  have hnames : numberedTables.bytesOf 1 = Text.utf8Bytes "n" := by
    simp [numberedTables, Disk.bytesOf]
  have hschema : Schema.parse "n:int,s:string"
      = .ok ⟨[⟨"n", .primitive .int⟩, ⟨"s", .primitive .string⟩]⟩ := by cbv
  have hopenDir : ∀ dir, numberedTables.root.find (Table.schemaPath dir) = .ok (.file 0) →
      numberedTables.root.find (Table.sortInfoPath dir) = .ok (.file 1) →
      Table.openAt numberedTables dir
        = .ok ⟨dir, ⟨[⟨"n", .primitive .int⟩, ⟨"s", .primitive .string⟩]⟩,
          some ⟨⟨[⟨"n", .primitive .int⟩]⟩⟩⟩ := by
    intro dir hdir hsort
    refine Table.openAt_eq_ok_iff.2
      ⟨_, Disk.readText_of_bytesOf hdir htext, hschema, ?_, rfl⟩
    exact Table.readSortOrder_eq_ok_some_iff.2
      ⟨"n", ⟨[⟨"n", .int, 0⟩]⟩, Disk.readText_of_bytesOf hsort hnames, rfl, rfl⟩
  exact Results.mapM_eq_ok_iff.2 (.cons (hopenDir "a" rfl rfl) (.cons (hopenDir "b" rfl rfl) .nil))

/-- The row of the later table that is below all others comes first, and of two rows of one key that
of the earlier table; the key of both leaves both. -/
theorem answers_of_numberedTables :
    ∃ r, ofTables numberedTables
        [⟨"a", ⟨[⟨"n", .primitive .int⟩, ⟨"s", .primitive .string⟩]⟩,
            some ⟨⟨[⟨"n", .primitive .int⟩]⟩⟩⟩,
          ⟨"b", ⟨[⟨"n", .primitive .int⟩, ⟨"s", .primitive .string⟩]⟩,
            some ⟨⟨[⟨"n", .primitive .int⟩]⟩⟩⟩]
        (some ⟨⟨[⟨"n", .primitive .int⟩]⟩⟩) "s" = .ok r
      ∧ RecordReader.answers numberedTables r
          [.next, .seek ⟨[1, 128, 0, 0, 1]⟩, .next, .next, .next]
        = [.ok (some [.string "y"]), .ok none, .ok (some [.string "x"]), .ok (some [.string "z"]),
          .ok none] := by
  let schema : Schema := ⟨[⟨"n", .primitive .int⟩, ⟨"s", .primitive .string⟩]⟩
  let order : SortOrder := ⟨⟨[⟨"n", .primitive .int⟩]⟩⟩
  have hopen : ["a", "b"].mapM (Table.openAt numberedTables)
      = .ok [⟨"a", schema, some order⟩, ⟨"b", schema, some order⟩] := mapM_openAt_numberedTables
  -- their row files spell three rows
  have hx : Json.parse? "[1,\"x\"]" = some (.array [.number (.int 1), .string "x"]) := by cbv
  have hy : Json.parse? "[0,\"y\"]" = some (.array [.number (.int 0), .string "y"]) := by cbv
  have hz : Json.parse? "[1,\"z\"]" = some (.array [.number (.int 1), .string "z"]) := by cbv
  have hfilea : numberedTables.root.find (Table.rowFilePath "a") = .ok (.file 2) := rfl
  have hfileb : numberedTables.root.find (Table.rowFilePath "b") = .ok (.file 3) := rfl
  have hbytesa : numberedTables.bytesOf 2
      = Table.Frame.around (Text.utf8Bytes "[1,\"x\"]") ++ [] := by
    simp [numberedTables, Disk.bytesOf]
  have hbytesb : numberedTables.bytesOf 3
      = Table.Frame.around (Text.utf8Bytes "[0,\"y\"]")
        ++ (Table.Frame.around (Text.utf8Bytes "[1,\"z\"]") ++ []) := by
    simp [numberedTables, Disk.bytesOf]
  have hrows : List.Forall₂ (Table.HoldsRows numberedTables)
      [⟨"a", schema, some order⟩, ⟨"b", schema, some order⟩]
      [[[.int 1, .string "x"]], [[.int 0, .string "y"], [.int 1, .string "z"]]] := by
    refine .cons ⟨2, hfilea, ?_⟩ (.cons ⟨3, hfileb, ?_⟩ .nil)
    · rw [hbytesa]
      exact .cons_text (by decide) hx rfl (.nil schema)
    · rw [hbytesb]
      exact .cons_text (by decide) hy rfl (.cons_text (by decide) hz rfl (.nil schema))
  have horder : ∀ t ∈ [Table.mk "a" schema (some order), ⟨"b", schema, some order⟩],
      t.sortOrder = some order := by simp
  have hascending : ∀ tr ∈ [Table.mk "a" schema (some order), ⟨"b", schema, some order⟩].zip
      [[[.int 1, .string "x"]], [[.int 0, .string "y"], [.int 1, .string "z"]]],
      ∀ es, Table.keyedRows order tr.1 tr.2 = .ok es → Ascending es := by
    rw [List.zip_cons_cons, List.zip_cons_cons, List.zip_nil_right, List.forall_mem_cons,
      List.forall_mem_cons]
    refine ⟨?_, ?_, fun tr htr => absurd htr List.not_mem_nil⟩
    · intro es hes
      obtain rfl := Except.ok.inj hes
      exact List.pairwise_singleton _ _
    · intro es hes
      obtain rfl := Except.ok.inj hes
      exact List.pairwise_pair.2 (by decide)
  have hp : Projection.parse schema "s" = .ok ⟨[⟨"s", []⟩], ⟨[⟨"s", .primitive .string⟩]⟩⟩ := by
    cbv
  obtain ⟨r, keyed, hr, -, hkeyed, hanswers⟩ :=
    answers_of_sorted_tables hopen horder hrows hascending rfl hp
  obtain rfl : [[⟨⟨[1, 128, 0, 0, 1]⟩, schema, [.int 1, .string "x"]⟩],
    [⟨⟨[1, 128, 0, 0, 0]⟩, schema, [.int 0, .string "y"]⟩,
      ⟨⟨[1, 128, 0, 0, 1]⟩, schema, [.int 1, .string "z"]⟩]] = keyed := Except.ok.inj hkeyed
  refine ⟨r, hr, ?_⟩
  rw [hanswers]
  simp only [List.flatten_cons, List.flatten_nil, List.append_nil, List.cons_append,
    List.nil_append, KeyedRow.sortByKey_cons, KeyedRow.sortByKey_nil]
  rfl

end TableScan.TableReader
