import TableScan.Proofs.Projection.Rows
import TableScan.Proofs.RowKey.Keyable
import TableScan.Proofs.Table.Frames
import TableScan.Proofs.Table.KeyedRows

/-!
# Cursors over good row files

What a cursor hands out where its row file decodes. `Table.HoldsRows` says which rows a table holds,
`TableCursor.Unread` which of them a cursor has still to read from its file, and `TableCursor.Queue`
which rows, with their keys, a cursor that is merged has still to give: its head, if it has one, and
the rows of its file.

Main statements: reading takes the first unread row (`nextRow_of_unread_cons`) and ends behind the
last one (`nextRow_of_unread_nil`); showing the head leaves the queue as it is
(`loadHead_of_queue`), and dropping the rows below a key drops them from the front of the queue
(`dropBelow_of_queue`).
-/

namespace TableScan

open Table.Frame (Frames)

/-- `SpellsRows schema bytes rows`: the bytes are one good frame for each row, in order. -/
def SpellsRows (schema : Schema) (bytes : List UInt8) (rows : List Record) : Prop :=
  ∃ payloads, Frames bytes payloads ∧
    List.Forall₂ (fun j row => Record.ofJson schema j = .ok row) payloads rows

namespace SpellsRows

theorem nil (schema : Schema) : SpellsRows schema [] [] := ⟨[], .nil, .nil⟩

theorem cons {schema : Schema} {frame rest : List UInt8} {payload : Json} {row : Record}
    {rows : List Record} (hframe : Table.Frame.read frame = .ok (payload, frame.length))
    (hrow : Record.ofJson schema payload = .ok row) (h : SpellsRows schema rest rows) :
    SpellsRows schema (frame ++ rest) (row :: rows) := by
  obtain ⟨payloads, hframes, hrows⟩ := h
  exact ⟨payload :: payloads, .cons hframe hframes, .cons hrow hrows⟩

theorem cons_text {schema : Schema} {text : String} {rest : List UInt8} {payload : Json}
    {row : Record} {rows : List Record}
    (hlen : Table.Frame.overhead + text.utf8ByteSize < 256 ^ 4)
    (hpayload : Json.parse? text = some payload) (hrow : Record.ofJson schema payload = .ok row)
    (h : SpellsRows schema rest rows) :
    SpellsRows schema (Table.Frame.around (Text.utf8Bytes text) ++ rest) (row :: rows) :=
  cons (Table.Frame.read_around_utf8Bytes hlen hpayload) hrow h

theorem eq_nil {schema : Schema} {bytes : List UInt8} (h : SpellsRows schema bytes []) :
    bytes = [] := by
  obtain ⟨payloads, hframes, hrows⟩ := h
  cases hrows
  cases hframes
  rfl

theorem exists_frame {schema : Schema} {bytes : List UInt8} {row : Record} {rows : List Record}
    (h : SpellsRows schema bytes (row :: rows)) :
    ∃ frame rest payload, bytes = frame ++ rest
      ∧ Table.Frame.read frame = .ok (payload, frame.length)
      ∧ Record.ofJson schema payload = .ok row ∧ SpellsRows schema rest rows := by
  obtain ⟨payloads, hframes, hrows⟩ := h
  cases hrows with
  | cons hrow hrows =>
    cases hframes with
    | cons head tail => exact ⟨_, _, _, rfl, head, hrow, _, tail, hrows⟩

/-- A row that is spelled was decoded by the schema. -/
theorem exists_ofJson {schema : Schema} {bytes : List UInt8} {rows : List Record}
    (h : SpellsRows schema bytes rows) {row : Record} (hrow : row ∈ rows) :
    ∃ j, Record.ofJson schema j = .ok row := by
  obtain ⟨payloads, _, hrows⟩ := h
  obtain ⟨j, _, hj⟩ := Results.exists_mem_of_forall₂ hrows hrow
  exact ⟨j, hj⟩

end SpellsRows

/-- The table on a disk holds some rows: its row file is there and spells them. -/
def Table.HoldsRows (disk : Disk) (t : Table) (rows : List Record) : Prop :=
  ∃ number, disk.root.find (Table.rowFilePath t.path) = .ok (.file number)
    ∧ SpellsRows t.schema (disk.bytesOf number) rows

namespace TableCursor

/-! ## Reading rows -/

/-- A cursor has still to read some rows from its file. -/
structure Unread (disk : Disk) (s : TableCursor) (rows : List Record) : Prop where
  bytes : ∃ number, s.file.number = some number
    ∧ SpellsRows s.table.schema (s.file.remaining (disk.bytesOf number)) rows
  ended : s.done = true → rows = []

/-- Reading changes how far a cursor is in its file, and nothing else of it. -/
structure SameView (s s' : TableCursor) : Prop where
  table : s'.table = s.table
  columns : s'.columns = s.columns
  keys : s'.keys = s.keys
  head : s'.head = s.head

theorem nextRow_of_unread_nil {disk : Disk} {s : TableCursor} (h : s.Unread disk []) :
    ∃ s', nextRow disk s = ⟨.ok none, s', []⟩ ∧ s'.Unread disk [] ∧ SameView s s' := by
  by_cases hdone : s.done = true
  · refine ⟨s, ?_, h, ⟨rfl, rfl, rfl, rfl⟩⟩
    unfold nextRow
    rw [if_pos hdone]
  -- the file is at its end, which the cursor finds out now
  · obtain ⟨number, hnumber, hspells⟩ := h.bytes
    obtain ⟨file, hread, hrest, hsame⟩ := RowFile.readFrame_of_nil hspells.eq_nil
    have hnext : RowFile.next disk s.file = ⟨.ok none, file, []⟩ := by
      unfold RowFile.next
      rw [hnumber]
      exact hread
    refine ⟨{ s with file := file, done := true }, ?_, ⟨⟨number, ?_, ?_⟩, fun _ => rfl⟩,
      ⟨rfl, rfl, rfl, rfl⟩⟩
    · unfold nextRow
      rw [if_neg hdone, hnext]
    · exact hsame.2.trans hnumber
    · exact ⟨[], hrest ▸ .nil, .nil⟩

theorem nextRow_of_unread_cons {disk : Disk} {s : TableCursor} {row : Record} {rows : List Record}
    (h : s.Unread disk (row :: rows)) :
    ∃ s', nextRow disk s = ⟨.ok (some row), s', []⟩ ∧ s'.Unread disk rows ∧ SameView s s' := by
  have hdone : ¬ s.done = true := fun hdone => List.cons_ne_nil row rows (h.ended hdone)
  obtain ⟨number, hnumber, hspells⟩ := h.bytes
  obtain ⟨frame, rest, payload, hbytes, hframe, hrow, hrows⟩ := hspells.exists_frame
  obtain ⟨file, hread, hrest, hsame⟩ := RowFile.readFrame_of_frame hframe hbytes
  have hnext : RowFile.next disk s.file = ⟨.ok (some payload), file, []⟩ := by
    unfold RowFile.next
    rw [hnumber]
    exact hread
  have hrowOf : s.rowOf payload = .ok row := by
    unfold rowOf
    rw [hrow]
  refine ⟨{ s with file := file }, ?_, ⟨⟨number, ?_, ?_⟩, fun hd => absurd hd hdone⟩,
    ⟨rfl, rfl, rfl, rfl⟩⟩
  · unfold nextRow
    simp only [if_neg hdone, hnext, hrowOf]
  · exact hsame.2.trans hnumber
  · show SpellsRows s.table.schema (file.remaining (disk.bytesOf number)) rows
    rw [hrest]
    exact hrows

/-! ## Opening -/

/-- The layout of the keys by which a table is merged, if it is. -/
def keysOf (order : Option SortOrder) (schema : Schema) : LoadResult (Option KeyLayout) :=
  match order with
  | some order => (KeyLayout.ofOrder order schema).map some
  | none => .ok none

/-- A table opens by its keys, and then by its row file. -/
theorem openTable_eq_bind {disk : Disk} {p : Projection} {order : Option SortOrder} {t : Table} :
    openTable disk p order t = (keysOf order t.schema >>= fun keys =>
      RowFile.openAt disk (Table.rowFilePath t.path) >>= fun file =>
        .ok ⟨t, file, p.selectors.map (FieldOrigin.of t.schema), keys, none, false⟩) := by
  cases order with
  | none => rfl
  | some order => rfl

theorem openTable_eq_ok_iff {disk : Disk} {p : Projection} {order : Option SortOrder} {t : Table}
    {s : TableCursor} :
    openTable disk p order t = .ok s ↔
      ∃ keys file, keysOf order t.schema = .ok keys
        ∧ RowFile.openAt disk (Table.rowFilePath t.path) = .ok file
        ∧ s = ⟨t, file, p.selectors.map (FieldOrigin.of t.schema), keys, none, false⟩ := by
  rw [openTable_eq_bind, Results.bind_eq_ok_iff]
  constructor
  · rintro ⟨keys, hkeys, h⟩
    obtain ⟨file, hfile, h⟩ := Results.bind_eq_ok_iff.1 h
    exact ⟨keys, file, hkeys, hfile, (Except.ok.inj h).symm⟩
  · rintro ⟨keys, file, hkeys, hfile, rfl⟩
    exact ⟨keys, hkeys, Results.bind_eq_ok_iff.2 ⟨file, hfile, rfl⟩⟩

/-- The row file of a table that holds rows opens, and all of them are unread. -/
theorem exists_openAt_of_holdsRows {disk : Disk} {t : Table} {rows : List Record}
    (h : t.HoldsRows disk rows) :
    ∃ file, RowFile.openAt disk (Table.rowFilePath t.path) = .ok file ∧
      ∀ columns keys, Unread disk ⟨t, file, columns, keys, none, false⟩ rows := by
  obtain ⟨number, hfile, hspells⟩ := h
  refine ⟨⟨Table.rowFilePath t.path, some number, 0, [], 0⟩, ?_, fun columns keys =>
    ⟨⟨number, rfl, hspells⟩, fun hd => by cases hd⟩⟩
  unfold RowFile.openAt
  rw [hfile]

/-! ## Rows with their keys -/

/-- `s.Keys row e`: the row, in the cursor's schema and with the key that the cursor gives it. -/
structure Keys (s : TableCursor) (row : Record) (e : KeyedRow) : Prop where
  key : s.keyOf row = .ok e.key
  schema : e.schema = s.table.schema
  row : e.row = row

/-- The head as a row with its key. -/
def headRow (s : TableCursor) : Option KeyedRow :=
  s.head.map fun h => ⟨h.1, s.table.schema, h.2⟩

/-- A cursor that projects by `p` has still to give some rows: its head and those of its file. -/
structure Queue (disk : Disk) (p : Projection) (s : TableCursor) (q : List KeyedRow) : Prop where
  columns : s.columns = p.selectors.map (FieldOrigin.of s.table.schema)
  rows : ∃ rows unread, s.Unread disk rows ∧ List.Forall₂ s.Keys rows unread
    ∧ q = s.headRow.toList ++ unread

/-- A cursor shows its head, if it has still rows to give. -/
def Shows (s : TableCursor) (q : List KeyedRow) : Prop := s.headRow = q.head?

theorem Shows.cases {s : TableCursor} {q : List KeyedRow} (h : s.Shows q) :
    (s.head = none ∧ q = []) ∨
      ∃ e q', s.head = some (e.key, e.row) ∧ e.schema = s.table.schema ∧ q = e :: q' := by
  cases q with
  | nil => exact .inl ⟨Option.map_eq_none_iff.1 h, rfl⟩
  | cons e q' =>
    obtain ⟨⟨key, row⟩, hhead, rfl⟩ := Option.map_eq_some_iff.1 h
    exact .inr ⟨_, q', hhead, rfl, rfl⟩

variable {disk : Disk} {p : Projection} {s : TableCursor} {q : List KeyedRow}

theorem Keys.of_sameView {s s' : TableCursor} {row : Record} {e : KeyedRow} (h : SameView s s')
    (hk : s.Keys row e) : s'.Keys row e := by
  refine ⟨?_, ?_, hk.row⟩
  · unfold keyOf
    rw [h.keys]
    exact hk.key
  · rw [h.table]
    exact hk.schema

theorem headRow_of_sameView {s s' : TableCursor} (h : SameView s s') : s'.headRow = s.headRow := by
  unfold headRow
  rw [h.head, h.table]

/-- Showing the head moves the first row of the file to the head, so the queue stays. -/
theorem loadHead_of_queue (h : Queue disk p s q) :
    ∃ s', loadHead disk s = ⟨.ok (), s', []⟩ ∧ Queue disk p s' q ∧ s'.Shows q := by
  obtain ⟨rows, unread, hunread, hkeys, rfl⟩ := h.rows
  cases hhead : s.head with
  | some shown =>
    refine ⟨s, ?_, h, ?_⟩
    · unfold loadHead
      rw [hhead]
      rfl
    · unfold Shows headRow
      rw [hhead]
      rfl
  | none =>
    have hempty : s.headRow = none := by
      unfold headRow
      rw [hhead]
      rfl
    rw [hempty]
    cases hkeys with
    | nil =>
      obtain ⟨s', hnext, hunread', hsame⟩ := nextRow_of_unread_nil hunread
      have hempty' : s'.headRow = none := (headRow_of_sameView hsame).trans hempty
      refine ⟨s', ?_, ⟨?_, [], [], hunread', .nil, ?_⟩, hempty'⟩
      · unfold loadHead
        rw [hhead, hnext]
        rfl
      · rw [hsame.columns, hsame.table]
        exact h.columns
      · rw [hempty']
    -- the first row of the file becomes the head and keeps its key, as a cursor is asked for
    -- keys in one way all along
    | @cons row e rows unread hkey hkeys =>
      obtain ⟨s', hnext, hunread', hsame⟩ := nextRow_of_unread_cons hunread
      have hkeyOf : s'.keyOf row = .ok e.key := (hkey.of_sameView hsame).key
      let shown : TableCursor := { s' with head := some (e.key, row) }
      have hshown : shown.headRow = some e := by
        obtain ⟨key, schema, own⟩ := e
        obtain rfl : own = row := hkey.row
        show some (KeyedRow.mk key s'.table.schema own) = some ⟨key, schema, own⟩
        rw [hsame.table, ← hkey.schema]
      refine ⟨shown, ?_, ⟨?_, rows, unread, ⟨hunread'.bytes, hunread'.ended⟩, ?_, ?_⟩, hshown⟩
      · unfold loadHead
        rw [hhead, hnext]
        simp only [Option.isSome_none, Bool.false_eq_true, if_false, hkeyOf]
        rfl
      · show s'.columns = p.selectors.map (FieldOrigin.of s'.table.schema)
        rw [hsame.columns, hsame.table]
        exact h.columns
      · refine hkeys.imp fun r f hr => ?_
        have hr' := hr.of_sameView hsame
        exact ⟨hr'.key, hr'.schema, hr'.row⟩
      · rw [hshown]
        rfl

/-- Without its head a cursor has the rows behind it to give. -/
theorem Queue.dropHead {e : KeyedRow} (h : Queue disk p s (e :: q)) (hshows : s.Shows (e :: q)) :
    Queue disk p s.dropHead q := by
  obtain ⟨rows, unread, hunread, hkeys, hq⟩ := h.rows
  rw [show s.headRow = some e from hshows] at hq
  obtain rfl : q = unread := (List.cons.inj hq).2
  refine ⟨h.columns, rows, q, ⟨hunread.bytes, hunread.ended⟩, ?_, rfl⟩
  exact hkeys.imp fun r f hr => ⟨hr.key, hr.schema, hr.row⟩

/-- A sorted table that opens and holds rows gives all of them, each with its key. -/
theorem exists_queue_of_holdsRows {path : String} {t : Table} {order : SortOrder}
    {rows : List Record} (p : Projection) (hopen : Table.openAt disk path = .ok t)
    (horder : t.sortOrder = some order) (hrows : t.HoldsRows disk rows) :
    ∃ s es, openTable disk p (some order) t = .ok s ∧ t.keyedRows order rows = .ok es
      ∧ Queue disk p s es := by
  obtain ⟨g, hg⟩ := KeyLayout.exists_ofOrder_of_openAt hopen horder
  obtain ⟨file, hfile, hunread⟩ := exists_openAt_of_holdsRows hrows
  let s : TableCursor := ⟨t, file, p.selectors.map (FieldOrigin.of t.schema), some g, none, false⟩
  have hkeys : keysOf (some order) t.schema = .ok (some g) :=
    Results.map_eq_ok_iff.2 ⟨g, hg, rfl⟩
  -- every row that decodes by the schema has values that a key can be made of
  have hkeyed : ∀ row ∈ rows,
      ∃ e, ((g.keyOfRecord row).map fun key => KeyedRow.mk key t.schema row) = .ok e := by
    obtain ⟨_, _, hspells⟩ := hrows
    intro row hrow
    obtain ⟨j, hj⟩ := hspells.exists_ofJson hrow
    obtain ⟨key, hkey⟩ := KeyLayout.exists_keyOfRecord hg hj
    exact ⟨⟨key, t.schema, row⟩, Results.map_eq_ok_iff.2 ⟨key, hkey, rfl⟩⟩
  obtain ⟨es, hes⟩ := Results.exists_mapM_eq_ok hkeyed
  refine ⟨s, es, openTable_eq_ok_iff.2 ⟨some g, file, hkeys, hfile, rfl⟩,
    Results.bind_eq_ok_iff.2 ⟨g, hg, hes⟩, rfl, rows, es, hunread _ _, ?_, rfl⟩
  refine (Results.mapM_eq_ok_iff.1 hes).imp fun row e he => ?_
  obtain ⟨key, hkey, rfl⟩ := Results.map_eq_ok_iff.1 he
  exact ⟨hkey, rfl, rfl⟩

theorem dropBelow_of_head_none {key : RowKey} {s s' : TableCursor} {log : List Log.Entry}
    (hload : loadHead disk s = ⟨.ok (), s', log⟩) (hhead : s'.head = none) :
    dropBelow disk key s = ⟨.ok (), s', log⟩ := by
  unfold dropBelow
  split
  · next heq =>
    rw [hload] at heq
    cases heq
  · next heq =>
    rw [hload] at heq
    cases heq
    split
    · rfl
    · next hsome =>
      rw [hhead] at hsome
      cases hsome

theorem dropBelow_of_head_some {key k : RowKey} {row : Record} {s s' : TableCursor}
    {log : List Log.Entry} (hload : loadHead disk s = ⟨.ok (), s', log⟩)
    (hhead : s'.head = some (k, row)) :
    dropBelow disk key s =
      if k < key then
        ⟨(dropBelow disk key s'.dropHead).result, (dropBelow disk key s'.dropHead).state,
          log ++ (dropBelow disk key s'.dropHead).log⟩
      else ⟨.ok (), s', log⟩ := by
  conv_lhs => unfold dropBelow
  split
  · next heq =>
    rw [hload] at heq
    cases heq
  · next heq =>
    rw [hload] at heq
    cases heq
    split
    · next hnone =>
      rw [hhead] at hnone
      cases hnone
    · next hsome =>
      rw [hhead] at hsome
      cases hsome
      rfl

/-- Dropping goes on as long as the row in front is below the key. -/
theorem dropBelow_of_queue (key : RowKey) (h : Queue disk p s q) :
    ∃ s', dropBelow disk key s = ⟨.ok (), s', []⟩
      ∧ Queue disk p s' (q.dropWhile fun e => decide (e.key < key)) := by
  induction q generalizing s with
  | nil =>
    obtain ⟨s', hload, hqueue, hshows⟩ := loadHead_of_queue h
    exact ⟨s', dropBelow_of_head_none hload (Option.map_eq_none_iff.1 hshows), hqueue⟩
  | cons e q ih =>
    obtain ⟨s', hload, hqueue, hshows⟩ := loadHead_of_queue h
    obtain ⟨⟨k, row⟩, hhead, rfl⟩ := Option.map_eq_some_iff.1 hshows
    -- what is left of the queue after the head is what `ih` is about
    have hdrop : dropBelow disk key s = _ := dropBelow_of_head_some hload hhead
    by_cases hlt : k < key
    · obtain ⟨s'', hs'', hqueue''⟩ := ih (hqueue.dropHead hshows)
      rw [if_pos hlt, hs''] at hdrop
      refine ⟨s'', hdrop, ?_⟩
      rw [List.dropWhile_cons_of_pos (by simpa using hlt)]
      exact hqueue''
    · rw [if_neg hlt] at hdrop
      refine ⟨s', hdrop, ?_⟩
      rw [List.dropWhile_cons_of_neg (by simpa using hlt)]
      exact hqueue

end TableCursor

end TableScan
