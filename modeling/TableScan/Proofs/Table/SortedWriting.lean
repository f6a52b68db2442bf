import TableScan.Proofs.Table.StoredValues
import TableScan.Proofs.Table.Writing

/-!
# Sorted tables as they are written and read

The rows of a sorted table are checked in the form in which they are stored, but what is stored is
their JSON, and the reader makes its keys of what it decodes. A key is the same again where the
values of the sort columns read back (`Value.ReadsBack`). All values do but floating-point ones:
JSON has no infinities, and the text of a number is not always read as the number that was written.

`TableCursor.rowsRead` are the rows that calls of a cursor read, where calls that fail are passed
over. Main statement: the keys of rows that are read from a written table do not descend, where the
floating-point values of the sort columns read back (`TableWriter.ascending_rowsRead`).
-/

namespace TableScan

/-! ## Values that read back -/

namespace Value

/-- A value of a primitive type is decoded from its own text. -/
def ReadsBack (p : Primitive) (v : Value) : Prop :=
  ∃ j, Json.parse? v.toJson.render = some j ∧ ofJson (.primitive p) j = .ok v

theorem readsBack_null (p : Primitive) : ReadsBack p .null :=
  ⟨.null, by rw [Json.parse?_render_eq]; rfl, ofJson_null _⟩

theorem itemsDepth_bytes (bs : List UInt8) :
    Json.itemsDepth (bs.map fun b => Json.ofNat b.toNat) = 0 := by
  induction bs with
  | nil => rfl
  | cons b bs ih =>
    show max 0 (Json.itemsDepth (bs.map fun b => Json.ofNat b.toNat)) = 0
    rw [ih]
    rfl

theorem depth_ofDouble (bits : UInt64) : (Json.ofDouble bits).depth = 0 := by
  unfold Json.ofDouble
  split <;> rfl

/-- A value of a primitive type is an array at most. -/
theorem depth_toJson_of_isOf {p : Primitive} {v : Value} (h : v.IsOf p) : v.toJson.depth ≤ 1 := by
  cases h with
  | bytes bs => exact Nat.le_of_eq (congrArg (· + 1) (itemsDepth_bytes bs))
  | float bits => exact Nat.le_trans (Nat.le_of_eq (depth_ofDouble _)) (Nat.zero_le 1)
  | double bits => exact Nat.le_trans (Nat.le_of_eq (depth_ofDouble _)) (Nat.zero_le 1)
  | int n => exact Nat.zero_le 1
  | long n => exact Nat.zero_le 1
  | string s => exact Nat.zero_le 1
  | bool b => exact Nat.zero_le 1

/-- All values but floating-point ones read back. -/
theorem readsBack_of_isOf {p : Primitive} {v : Value} (h : v.IsOf p)
    (hfree : p ≠ .float ∧ p ≠ .double) : ReadsBack p v := by
  obtain ⟨hread, hexact⟩ := ofJson_toJson_of_isOf h hfree
  have hdepth : v.toJson.depth < Json.depthLimit :=
    Nat.lt_of_le_of_lt (depth_toJson_of_isOf h) (by decide)
  exact ⟨v.toJson, Json.parse?_render hexact hdepth, hread⟩

/-- A value of a primitive type reads inside a row as it reads alone. -/
theorem toValue?_inside {p : Primitive} {v : Value} (h : v = .null ∨ v.IsOf p) :
    Json.Syntax.toValue? (Json.depthLimit - 1) v.toJson.tree
      = Json.Syntax.toValue? Json.depthLimit v.toJson.tree := by
  -- no room is needed for a number
  have hdouble : ∀ bits, Json.Syntax.toValue? (Json.depthLimit - 1) (Json.ofDouble bits).tree
      = Json.Syntax.toValue? Json.depthLimit (Json.ofDouble bits).tree := by
    intro bits
    unfold Json.ofDouble
    split
    · rw [Json.tree]
      cases (Json.Number.double bits).spelling? with
      | none => rfl
      | some s => rfl
    · rfl
  rcases h with rfl | h
  · rfl
  · cases h with
    | bytes bs =>
      have hdepth : (bytes bs).toJson.depth ≤ 1 := depth_toJson_of_isOf (.bytes bs)
      have hexact : (bytes bs).toJson.IsExact := itemsExact_bytes bs
      rw [Json.toValue?_tree _ hexact (Nat.lt_of_le_of_lt hdepth (by decide)),
        Json.toValue?_tree _ hexact (Nat.lt_of_le_of_lt hdepth (by decide))]
    | float bits => exact hdouble _
    | double bits => exact hdouble _
    | int n => rfl
    | long n => rfl
    | string s => rfl
    | bool b => rfl

theorem eq_of_readsBack {p : Primitive} {v again : Value} {j : Json} (hv : v = .null ∨ v.IsOf p)
    (hback : ReadsBack p v)
    (hj : Json.Syntax.toValue? (Json.depthLimit - 1) v.toJson.tree = some j)
    (h : ofJson (.primitive p) j = .ok again) : again = v := by
  obtain ⟨j', hparse, hread⟩ := hback
  rw [Json.parse?_render_eq, ← toValue?_inside hv] at hparse
  obtain rfl := Option.some.inj (hparse.symm.trans hj)
  exact Except.ok.inj (h.symm.trans hread)

/-- Each item is decoded by the type of its column. -/
theorem ofJson_getElem?_of_fieldsOfJson {columns : List Column} {items : List Json} {row : Record}
    (h : fieldsOfJson columns items = .ok row) {i : Nat} {c : Column} {j : Json}
    (hc : columns[i]? = some c) (hj : items[i]? = some j) :
    ∃ v, row[i]? = some v ∧ ofJson c.type j = .ok v := by
  induction columns generalizing items row i with
  | nil => cases hc
  | cons column columns ih =>
    cases items with
    | nil => cases hj
    | cons item items =>
      obtain ⟨name, type⟩ := column
      unfold fieldsOfJson at h
      split at h
      · cases h
      · next v hv =>
        obtain ⟨rest, hrest, rfl⟩ := Results.map_eq_ok_iff.1 h
        cases i with
        | zero =>
          obtain rfl := Option.some.inj hc
          obtain rfl := Option.some.inj hj
          exact ⟨v, rfl, hv⟩
        | succ i => exact ih hrest hc hj

end Value

/-! ## Keys of rows that are read back -/

/-- At the position of a part of a key stands null or a value of the type of the part. -/
theorem KeyLayout.isOf_getElem? {order : SortOrder} {schema : Schema} {g : KeyLayout} {j : Json}
    {row : Record} {part : KeyField} {v : Value} (hg : ofOrder order schema = .ok g)
    (hpart : part ∈ g.parts) (hrow : Record.ofJson schema j = .ok row)
    (hv : row[part.position]? = some v) : v = .null ∨ v.IsOf part.type := by
  obtain ⟨parts, hparts, rfl⟩ := Results.map_eq_ok_iff.1 hg
  obtain ⟨c, _, hc⟩ := Results.exists_mem_of_forall₂ (Results.mapM_eq_ok_iff.1 hparts) hpart
  obtain ⟨actual, hactual, htype⟩ := getElem?_of_ofColumn hc
  obtain ⟨v', hv', j, hj⟩ :=
    Results.exists_getElem?_of_forall₂ (Record.forall₂_of_ofJson hrow) hactual
  obtain rfl := Option.some.inj (hv'.symm.trans hv)
  rw [htype] at hj
  exact Value.isOf_of_ofJson hj

/-- The values that a key is made of read back if the floating-point ones do. -/
theorem KeyLayout.readsBack_getElem? {order : SortOrder} {schema : Schema} {g : KeyLayout}
    {j : Json} {row : Record} {part : KeyField} {v : Value} (hg : ofOrder order schema = .ok g)
    (hpart : part ∈ g.parts) (hrow : Record.ofJson schema j = .ok row)
    (hv : row[part.position]? = some v)
    (hfloats : part.type = .float ∨ part.type = .double → v.ReadsBack part.type) :
    v.ReadsBack part.type := by
  by_cases hfloat : part.type = .float ∨ part.type = .double
  · exact hfloats hfloat
  · rcases isOf_getElem? hg hpart hrow hv with rfl | hof
    · exact Value.readsBack_null _
    · exact Value.readsBack_of_isOf hof (not_or.1 hfloat)

/-- The key is the same again where the values that it is made of read back. -/
theorem KeyLayout.keyOfRecord_of_readAs {order : SortOrder} {schema : Schema} {g : KeyLayout}
    {j : Json} {stored again : Record} (hg : ofOrder order schema = .ok g)
    (hstored : Record.ofJson schema j = .ok stored)
    (hback : ∀ part ∈ g.parts, ∀ v, stored[part.position]? = some v → v.ReadsBack part.type)
    (h : Record.ReadAs schema stored again) : g.keyOfRecord again = g.keyOfRecord stored := by
  obtain ⟨j', hparse, hagain⟩ := h
  obtain ⟨items, rfl, hitems⟩ := Json.parse?_render_array_iff.1 hparse
  rw [Value.fieldsToJson_eq_map] at hitems
  have hfields : Value.fieldsOfJson schema.columns items = .ok again := by
    unfold Record.ofJson at hagain
    simp only at hagain
    split at hagain
    · exact hagain
    · cases hagain
  obtain ⟨parts, hparts, rfl⟩ := Results.map_eq_ok_iff.1 hg
  -- the values at the positions of the key are the same
  have hvalues : ∀ part ∈ parts,
      ∃ v, stored[part.position]? = some v ∧ again[part.position]? = some v := by
    intro part hpart
    obtain ⟨c, _, hc⟩ := Results.exists_mem_of_forall₂ (Results.mapM_eq_ok_iff.1 hparts) hpart
    obtain ⟨actual, hactual, htype⟩ := getElem?_of_ofColumn hc
    obtain ⟨v, hv, j, hj⟩ :=
      Results.exists_getElem?_of_forall₂ (Record.forall₂_of_ofJson hstored) hactual
    have hitem : (stored.map Value.toJson)[part.position]? = some v.toJson := by
      rw [List.getElem?_map, hv]
      rfl
    obtain ⟨item, hitem, htree⟩ := Results.exists_getElem?_of_forall₂ hitems hitem
    obtain ⟨v', hv', hdecoded⟩ := Value.ofJson_getElem?_of_fieldsOfJson hfields hactual hitem
    rw [htype] at hj hdecoded
    obtain rfl := Value.eq_of_readsBack (Value.isOf_of_ofJson hj) (hback part hpart v hv) htree
      hdecoded
    exact ⟨v', hv, hv'⟩
  unfold keyOfRecord
  refine congrArg (· >>= _) (Results.mapM_congr fun part hpart => ?_)
  obtain ⟨v, hv, hv'⟩ := hvalues part hpart
  simp only [hv, hv']

/-! ## Reading what was written -/

namespace TableCursor

variable {disk : Disk} {s : TableCursor} {rows : List Record}

/-- A cursor has the frames of some rows ahead of it, and nothing behind them. -/
structure Ahead (disk : Disk) (s : TableCursor) (rows : List Record) : Prop where
  bytes : ∃ number, s.file.number = some number
    ∧ s.file.remaining (disk.bytesOf number) = rows.flatMap Table.Frame.ofRow
  ended : s.done = true → rows = []

/-- The rows that some calls read. Calls that fail are passed over. -/
def rowsRead (disk : Disk) : Nat → TableCursor → List Record
  | 0, _ => []
  | calls + 1, s =>
    let outcome := nextRow disk s
    let row := match outcome.result with
      | .ok (some row) => [row]
      | _ => []
    row ++ rowsRead disk calls outcome.state

/-- Where the file spells rows, calls read them one by one. -/
theorem rowsRead_of_unread (h : s.Unread disk rows) (calls : Nat) :
    rowsRead disk calls s = rows.take calls := by
  induction calls generalizing s rows with
  | zero => rfl
  | succ calls ih =>
    unfold rowsRead
    cases rows with
    | nil =>
      -- behind the last row nothing is read any more
      obtain ⟨s', hnext, hunread, -⟩ := nextRow_of_unread_nil h
      rw [hnext]
      exact (ih hunread).trans List.take_nil
    | cons row rows =>
      obtain ⟨s', hnext, hunread, -⟩ := nextRow_of_unread_cons h
      rw [hnext]
      exact congrArg (row :: ·) (ih hunread)

theorem nextRow_of_ahead_nil (h : Ahead disk s []) :
    ∃ s', nextRow disk s = ⟨.ok none, s', []⟩ ∧ Ahead disk s' [] ∧ SameView s s' := by
  obtain ⟨number, hnumber, hbytes⟩ := h.bytes
  have hunread : s.Unread disk [] := by
    refine ⟨⟨number, hnumber, ?_⟩, fun _ => rfl⟩
    rw [hbytes]
    exact .nil _
  obtain ⟨s', hnext, hunread', hsame⟩ := nextRow_of_unread_nil hunread
  obtain ⟨number', hnumber', hspells⟩ := hunread'.bytes
  exact ⟨s', hnext, ⟨⟨number', hnumber', hspells.eq_nil⟩, fun _ => rfl⟩, hsame⟩

/-- A call takes the first frame, whether the row in it can be read or not. -/
theorem nextRow_of_ahead_cons {row : Record} (h : Ahead disk s (row :: rows))
    (hlength : (Table.Frame.ofRow row).length < 2 ^ 32) :
    ∃ result s', nextRow disk s = ⟨result, s', []⟩ ∧ Ahead disk s' rows ∧ SameView s s'
      ∧ ∀ again, result = .ok (some again) → Record.ReadAs s.table.schema row again := by
  have hdone : ¬ s.done = true := fun hdone => List.cons_ne_nil row rows (h.ended hdone)
  obtain ⟨number, hnumber, hbytes⟩ := h.bytes
  rw [List.flatMap_cons] at hbytes
  rw [Table.Frame.ofRow, Table.Frame.length_around] at hlength
  have hdeclared := Table.Frame.declaredLength_around hlength
  rw [← Table.Frame.length_around] at hdeclared
  obtain ⟨file, hrest, hsame, -, hframe⟩ := RowFile.readFrame_of_declared hdeclared
    (by rw [Table.Frame.length_around]; exact Nat.le_add_right _ _) hbytes
  have hnext : RowFile.next disk s.file = s.file.readFrame (disk.bytesOf number) := by
    unfold RowFile.next
    rw [hnumber]
  rw [Table.Frame.read_around hlength, Json.parseBytes?, Text.ofUtf8Bytes?_utf8Bytes,
    Option.bind_some] at hframe
  -- the frame is used up in any case, and the rows behind it are ahead
  have hahead : ∀ offset, Ahead disk { s with file := { file with offset := offset } } rows :=
    fun offset => ⟨⟨number, hsame.2.trans hnumber, hrest⟩, fun hd => absurd hd hdone⟩
  unfold nextRow
  rw [if_neg hdone, hnext, hframe]
  -- what is in the frame may not be read, or may be no row of the table
  cases hparse : Json.parse? row.toJson.render with
  | none =>
    refine ⟨_, _, rfl, hahead file.offset, ⟨rfl, rfl, rfl, rfl⟩, fun again hagain => ?_⟩
    cases hagain
  | some j =>
    simp only
    unfold rowOf
    cases hrow : Record.ofJson s.table.schema j with
    | error e =>
      refine ⟨_, _, rfl, hahead _, ⟨rfl, rfl, rfl, rfl⟩, fun again hagain => ?_⟩
      cases hagain
    | ok own =>
      refine ⟨_, _, rfl, hahead _, ⟨rfl, rfl, rfl, rfl⟩, fun again hagain => ?_⟩
      obtain rfl := Option.some.inj (Except.ok.inj hagain)
      exact ⟨j, hparse, hrow⟩

/-- What calls read are some of the rows ahead, in their order. -/
theorem rowsRead_of_ahead (h : Ahead disk s rows)
    (hlength : ∀ row ∈ rows, (Table.Frame.ofRow row).length < 2 ^ 32) (calls : Nat) :
    List.SublistForall₂ (fun again stored => Record.ReadAs s.table.schema stored again)
      (rowsRead disk calls s) rows := by
  induction calls generalizing s rows with
  | zero => exact .nil
  | succ calls ih =>
    unfold rowsRead
    cases rows with
    | nil =>
      obtain ⟨s', hnext, hahead, hsame⟩ := nextRow_of_ahead_nil h
      have hrest := ih hahead hlength
      rw [hsame.table] at hrest
      rw [hnext]
      exact hrest
    | cons row rows =>
      obtain ⟨hfirst, hlengths⟩ := List.forall_mem_cons.1 hlength
      obtain ⟨result, s', hnext, hahead, hsame, hread⟩ := nextRow_of_ahead_cons h hfirst
      have hrest := ih hahead hlengths
      rw [hsame.table] at hrest
      rw [hnext]
      simp only
      split
      · next again => exact .cons (hread again rfl) hrest
      · exact .cons_right hrest

end TableCursor

namespace TableWriter

open TableCursor (rowsRead)

variable {disk disk₁ disk₂ : Disk} {dir : String} {schema : Schema} {sortColumns : List String}
  {w : TableWriter} {log : List Log.Entry} {rows : List Record}

/-- The reader of a table that was created, with its keys. -/
def cursorOf (dir : String) (schema : Schema) (file : Nat) (order : SortOrder) (g : KeyLayout)
    (p : Projection) : TableCursor :=
  ⟨⟨dir, schema, some order⟩, ⟨Table.rowFilePath dir, some file, 0, [], 0⟩,
    p.selectors.map (FieldOrigin.of schema), some g, none, false⟩

theorem openTable_eq_cursorOf {order : SortOrder} {g : KeyLayout}
    (hcreated : Created dir schema sortColumns w disk₁) (hsame : Disk.SameBut w.file disk₁ disk₂)
    (hg : KeyLayout.ofOrder order schema = .ok g) (p : Projection) :
    TableCursor.openTable disk₂ p (some order) ⟨dir, schema, some order⟩
      = .ok (cursorOf dir schema w.file order g p) := by
  refine TableCursor.openTable_eq_ok_iff.2
    ⟨some g, _, Results.map_eq_ok_iff.2 ⟨g, hg, rfl⟩, ?_, rfl⟩
  unfold RowFile.openAt
  rw [hsame.root, hcreated.rowFile]

/-- A sorted table is read in the order of its keys, whatever rows were appended to it and however
many of them were refused, where the floating-point values in its sort columns read back. -/
theorem ascending_rowsRead (hsound : disk.IsSound) (hsorted : sortColumns ≠ [])
    (hcreate : (create dir schema sortColumns).run disk = ⟨.ok w, disk₁, log⟩)
    (hlength : ∀ stored ∈ storedOf rows (disk₁, w), (Table.Frame.ofRow stored).length < 2 ^ 32)
    (hback : ∀ g, w.keys = some g → ∀ stored ∈ storedOf rows (disk₁, w), ∀ part ∈ g.parts,
      part.type = .float ∨ part.type = .double →
        ∀ v, stored[part.position]? = some v → v.ReadsBack part.type) (p : Projection) :
    ∃ order g disk₂ s, SortOrder.ofNames sortColumns schema = .ok order
      ∧ KeyLayout.ofOrder order schema = .ok g
      ∧ (finish (appendEach rows (disk₁, w)).2.2).run (appendEach rows (disk₁, w)).2.1
        = ⟨.ok (storedOf rows (disk₁, w)).length, disk₂, []⟩
      ∧ TableCursor.openTable disk₂ p (some order) ⟨dir, schema, some order⟩ = .ok s
      ∧ ∀ calls, ∃ keys, (rowsRead disk₂ calls s).mapM g.keyOfRecord = .ok keys
        ∧ keys.Pairwise fun a b => ¬ b < a := by
  have hcreated := create_spec hsound hcreate
  obtain ⟨order, g, horder, hg, hkeys⟩ := hcreated.sorted hsorted
  -- what is stored was decoded by the schema of the table
  have hdecoded : ∀ stored ∈ storedOf rows (disk₁, w),
      ∃ j, Record.ofJson schema j = .ok stored := by
    intro stored hstored
    obtain ⟨row, -, hrow⟩ := exists_ofJson_of_mem_storedOf (s := (disk₁, w)) hcreated.atEnd hstored
    rw [hcreated.schema_eq] at hrow
    exact ⟨row.toJson, hrow⟩
  obtain ⟨keys, hkeyed, -, hpairwise⟩ :=
    ascending_storedOf (s := (disk₁, w)) hkeys hcreated.atEnd rows
  have hback := hback g hkeys
  obtain ⟨disk₂, hfinish, hbytes, hsame⟩ := hcreated.run_finish rows
  generalize storedOf rows (disk₁, w) = stored at hlength hback hdecoded hkeyed hfinish hbytes
  -- the reader stands in front of all frames
  have hahead : (cursorOf dir schema w.file order g p).Ahead disk₂ stored :=
    ⟨⟨w.file, rfl, hbytes⟩, nofun⟩
  refine ⟨order, g, disk₂, _, horder, hg, hfinish, openTable_eq_cursorOf hcreated hsame hg p,
    fun calls => ?_⟩
  -- every row that is read has the key of the stored row that it was read from
  have hagain : List.Forall₂
      (fun row k => ∀ again, Record.ReadAs schema row again → g.keyOfRecord again = .ok k)
      stored keys := by
    refine Results.forall₂_imp_of_mem hkeyed fun row hrow k hk again hread => ?_
    obtain ⟨j, hj⟩ := hdecoded row hrow
    have hvalues : ∀ part ∈ g.parts, ∀ v, row[part.position]? = some v → v.ReadsBack part.type :=
      fun part hpart v hv => KeyLayout.readsBack_getElem? hg hpart hj hv
        fun hfloat => hback row hrow part hpart hfloat v hv
    rw [KeyLayout.keyOfRecord_of_readAs hg hj hvalues hread, hk]
  have hread := TableCursor.rowsRead_of_ahead hahead hlength calls
  obtain ⟨keys', hkeys', hsublist⟩ := List.sublistForall₂_iff.1
    (Results.sublistForall₂_trans (T := fun again k => g.keyOfRecord again = .ok k)
      (fun again row k hread hagain => hagain again hread) hread hagain)
  exact ⟨keys', Results.mapM_eq_ok_iff.2 hkeys', hpairwise.sublist hsublist⟩

/-- Rows of a narrow floating-point number each. -/
def readings : Schema := ⟨[⟨"x", .primitive .float⟩]⟩

theorem ofJson_reading {bits : UInt64} (h : Binary.double.isFinite bits.toNat = true) :
    Record.ofJson readings (Record.toJson [.double bits]) = .ok [.float (Binary.narrow bits)] := by
  have hjson : Record.toJson [.double bits] = .array [.number (.double bits)] := by
    show Json.array [Json.ofDouble bits] = _
    rw [Json.ofDouble, if_pos h]
  rw [hjson]
  rfl

/-- The text of zero is read as zero. -/
theorem toValue?_zero (room : Nat) :
    Json.Syntax.toValue? room (Value.float 0).toJson.tree = some (.number (.double 0)) := by
  have hwide : Binary.widen 0 = 0 := by decide +kernel
  have hspelling : (Json.Number.double 0).spelling?.map Json.Spelling.numeral
      = some ⟨false, [0], [0], none⟩ := by decide +kernel
  have hnumber : Json.Numeral.toNumber? ⟨false, [0], [0], none⟩ = some (.double 0) := by
    decide +kernel
  rw [Value.toJson, hwide, Json.ofDouble, if_pos (by decide +kernel), Json.tree, hspelling]
  exact congrArg (Option.map Json.number) hnumber

theorem readsBack_zero : Value.ReadsBack .float (.float 0) := by
  have hnarrow : Binary.narrow 0 = 0 := by decide +kernel
  refine ⟨.number (.double 0), ?_, ?_⟩
  · rw [Json.parse?_render_eq, toValue?_zero]
  · show Except.ok (Value.float (Binary.narrow 0)) = _
    rw [hnarrow]

/-- Infinity is stored as null. -/
theorem toValue?_infinity (room : Nat) :
    Json.Syntax.toValue? room (Value.float 0x7f800000).toJson.tree = some .null := by
  rw [Value.toJson, Json.ofDouble, if_neg (by decide +kernel)]
  rfl

/-- The disk after a table of readings was created on an empty one, sorted by its column. -/
def readingsDisk : Disk where
  root := .dir
    [("t", .dir [(".schema", .file 0), (".sortinfo", .file 1), ("records.dat", .file 2)])]
  contents := [Text.utf8Bytes readings.text, Text.utf8Bytes "x", []]

/-- The writer of that table. -/
def readingsWriter : TableWriter :=
  ⟨"t", readings, some ⟨[⟨"x", .float, 0⟩]⟩, none, 2, 0, [], 0⟩

theorem run_create_readings :
    (create "t" readings ["x"]).run Disk.empty = ⟨.ok readingsWriter, readingsDisk, []⟩ := rfl

/-- A null, zero, and a null that comes too late. -/
def lateNull : List Record := [[.null], [.double 0], [.null]]

theorem ascending_rowsRead_lateNull :
    ∃ disk₂ s,
      (finish (appendEach lateNull (readingsDisk, readingsWriter)).2.2).run
          (appendEach lateNull (readingsDisk, readingsWriter)).2.1
            = ⟨.ok (storedOf lateNull (readingsDisk, readingsWriter)).length, disk₂, []⟩
        ∧ TableCursor.openTable disk₂ (.identity readings) (some ⟨readings⟩)
          ⟨"t", readings, some ⟨readings⟩⟩ = .ok s
        ∧ ∀ calls, ∃ keys,
          (rowsRead disk₂ calls s).mapM (KeyLayout.keyOfRecord ⟨[⟨"x", .float, 0⟩]⟩) = .ok keys
            ∧ keys.Pairwise fun a b => ¬ b < a := by
  have hcreated := create_spec Disk.isSound_empty run_create_readings
  have hrows : ∀ row ∈ lateNull, Record.ofJson readings row.toJson = .ok [.null]
      ∨ Record.ofJson readings row.toJson = .ok [.float 0] := by
    have hzero : Record.ofJson readings (Record.toJson [.double 0])
        = .ok [.float (Binary.narrow 0)] := ofJson_reading (by decide +kernel)
    have hnarrow : Binary.narrow 0 = 0 := by decide +kernel
    rw [hnarrow] at hzero
    exact List.forall_mem_cons.2 ⟨.inl rfl, List.forall_mem_cons.2 ⟨.inr hzero,
      List.forall_mem_cons.2 ⟨.inl rfl, nofun⟩⟩⟩
  have hstored : ∀ stored ∈ storedOf lateNull (readingsDisk, readingsWriter),
      stored = [.null] ∨ stored = [.float 0] := by
    intro stored hmem
    obtain ⟨row, hrow, hdecoded⟩ :=
      exists_ofJson_of_mem_storedOf (s := (readingsDisk, readingsWriter)) hcreated.atEnd hmem
    rcases hrows row hrow with h | h
    · exact .inl (Except.ok.inj (hdecoded.symm.trans h))
    · exact .inr (Except.ok.inj (hdecoded.symm.trans h))
  have hlength : ∀ stored ∈ storedOf lateNull (readingsDisk, readingsWriter),
      (Table.Frame.ofRow stored).length < 2 ^ 32 := by
    intro stored hmem
    rcases hstored stored hmem with rfl | rfl
    · decide +kernel
    · decide +kernel
  have hback : ∀ g, readingsWriter.keys = some g →
      ∀ stored ∈ storedOf lateNull (readingsDisk, readingsWriter), ∀ part ∈ g.parts,
        part.type = .float ∨ part.type = .double →
          ∀ v, stored[part.position]? = some v → v.ReadsBack part.type := by
    intro g hg stored hmem part hpart _ v hv
    obtain rfl := Option.some.inj hg
    obtain rfl := List.mem_singleton.1 hpart
    rcases hstored stored hmem with rfl | rfl
    · obtain rfl := Option.some.inj hv
      exact Value.readsBack_null _
    · obtain rfl := Option.some.inj hv
      exact readsBack_zero
  obtain ⟨order, g, disk₂, s, horder, hg, hfinish, hopen, hascending⟩ := ascending_rowsRead
    Disk.isSound_empty (List.cons_ne_nil _ _) run_create_readings hlength hback (.identity readings)
  obtain rfl : order = ⟨readings⟩ := Except.ok.inj (horder.symm.trans rfl)
  obtain rfl : g = ⟨[⟨"x", .float, 0⟩]⟩ := Except.ok.inj (hg.symm.trans rfl)
  exact ⟨disk₂, s, hfinish, hopen, hascending⟩

/-- Zero, and a number too great for a narrow one. -/
def overflowing : List Record := [[.double 0], [.double 0x7e37e43c8800759c]]

/-- A number that is too great is taken with the key of infinity, above all others. But it is stored
as null, and that is read as a row below all others. -/
theorem not_ascending_rowsRead_overflowing :
    ∃ disk₂ s keys,
      (appendEach overflowing (readingsDisk, readingsWriter)).1 = [.ok (), .ok ()]
        ∧ (finish (appendEach overflowing (readingsDisk, readingsWriter)).2.2).run
          (appendEach overflowing (readingsDisk, readingsWriter)).2.1 = ⟨.ok 2, disk₂, []⟩
        ∧ TableCursor.openTable disk₂ (.identity readings) (some ⟨readings⟩)
          ⟨"t", readings, some ⟨readings⟩⟩ = .ok s
        ∧ rowsRead disk₂ 2 s = [[.float 0], [.null]]
        ∧ (rowsRead disk₂ 2 s).mapM (KeyLayout.keyOfRecord ⟨[⟨"x", .float, 0⟩]⟩) = .ok keys
        ∧ ¬ keys.Pairwise fun a b => ¬ b < a := by
  have hcreated := create_spec Disk.isSound_empty run_create_readings
  have hdecoded : List.Forall₂ (fun row own => Record.ofJson readings row.toJson = .ok own)
      overflowing [[.float 0], [.float 0x7f800000]] := by
    have hzero : Binary.narrow 0 = 0 := by decide +kernel
    have hinfinity : Binary.narrow 0x7e37e43c8800759c = 0x7f800000 := by decide +kernel
    refine .cons ?_ (.cons ?_ .nil)
    · rw [ofJson_reading (by decide +kernel), hzero]
    · rw [ofJson_reading (by decide +kernel), hinfinity]
  have hkeyed : List.Forall₂
      (fun own k => KeyLayout.keyOfRecord ⟨[⟨"x", .float, 0⟩]⟩ own = .ok k)
      [[.float 0], [.float 0x7f800000]] [⟨[1, 128, 0, 0, 0]⟩, ⟨[1, 255, 128, 0, 0]⟩] :=
    .cons (by decide +kernel) (.cons (by decide +kernel) .nil)
  obtain ⟨hstored, hresults⟩ := storedOf_of_ascending (s := (readingsDisk, readingsWriter)) rfl rfl
    hcreated.atEnd hdecoded hkeyed nofun (by decide)
  -- the second row is read as another one than was stored
  have hread : List.Forall₂ (Record.ReadAs readings) [[.float 0], [.float 0x7f800000]]
      [[.float 0], [.null]] := by
    refine .cons ⟨.array [.number (.double 0)], ?_, ?_⟩ (.cons ⟨.array [.null], ?_, rfl⟩ .nil)
    · exact Json.parse?_render_array_iff.2 ⟨_, rfl, .cons (toValue?_zero _) .nil⟩
    · have hnarrow : Binary.narrow 0 = 0 := by decide +kernel
      show Except.ok [Value.float (Binary.narrow 0)] = _
      rw [hnarrow]
    · exact Json.parse?_render_array_iff.2 ⟨_, rfl, .cons (toValue?_infinity _) .nil⟩
  have hlength : ∀ row ∈ ([[.float 0], [.float 0x7f800000]] : List Record),
      (Table.Frame.ofRow row).length < 2 ^ 32 :=
    List.forall_mem_cons.2 ⟨by decide +kernel, List.forall_mem_cons.2 ⟨by decide +kernel, nofun⟩⟩
  obtain ⟨disk₂, hfinish, hbytes, hsame⟩ := hcreated.run_finish overflowing
  rw [hstored] at hfinish hbytes
  have hunread : (cursorOf "t" readings 2 ⟨readings⟩ ⟨[⟨"x", .float, 0⟩]⟩
      (.identity readings)).Unread disk₂ [[.float 0], [.null]] := by
    refine ⟨⟨2, rfl, ?_⟩, nofun⟩
    show SpellsRows readings (disk₂.bytesOf 2) _
    rw [show disk₂.bytesOf 2 = _ from hbytes]
    exact spellsRows_flatMap hlength hread
  have hrows := TableCursor.rowsRead_of_unread hunread 2
  refine ⟨disk₂, _, [⟨[1, 128, 0, 0, 0]⟩, ⟨[0]⟩], hresults, hfinish,
    openTable_eq_cursorOf hcreated hsame rfl _, hrows, ?_, by decide⟩
  show (rowsRead disk₂ 2 (cursorOf "t" readings 2 _ _ _)).mapM _ = _
  rw [hrows]
  decide +kernel

end TableWriter

end TableScan
