import TableScan.Proofs.Reader.Merge

/-!
# Reading tables in turn

A reader without a sort order gives the rows of its first table, then those of the next one, and so
on. `RecordReader.Delivers` says which records a reader gives when it is asked for one after
another.

Main statement: such a reader over tables that hold rows delivers the projections of all of them
(`delivers_of_pending`).
-/

namespace TableScan

namespace RecordReader

variable {ρ : Type} [RecordReader ρ] {disk : Disk}

/-- The reader gives some records one by one, and then none, however often it is asked. -/
def Delivers (disk : Disk) (r : ρ) (records : List Record) : Prop :=
  ∀ n, answers disk r (List.replicate n .next)
    = (List.range n).map fun i => Except.ok records[i]?

/-- What a reader delivers is determined. -/
theorem Delivers.unique {r : ρ} {a b : List Record} (ha : Delivers disk r a)
    (hb : Delivers disk r b) : a = b := by
  refine List.ext_getElem? fun i => ?_
  have h := (ha (i + 1)).symm.trans (hb (i + 1))
  rw [List.range_succ, List.map_append, List.map_append] at h
  have hlast := (List.append_inj h (by simp)).2
  exact Except.ok.inj (List.cons.inj hlast).1

section

variable {r r' : ρ} {records : List Record} {log : List Log.Entry}

/-- A reader that gives the first record, and the others as they are asked for after it. -/
theorem answers_replicate_succ {n : Nat}
    (hcall : (perform disk .next).run r = ⟨.ok records.head?, r', log⟩)
    (h : answers disk r' (List.replicate n .next)
      = (List.range n).map fun i => Except.ok records.tail[i]?) :
    answers disk r (List.replicate (n + 1) .next)
      = (List.range (n + 1)).map fun i => Except.ok records[i]? := by
  rw [List.replicate_succ, answers_cons hcall, h, List.range_succ_eq_map, List.map_cons,
    List.map_map]
  congr 1
  · rw [List.head?_eq_getElem?]
  · refine List.map_congr_left fun i _ => ?_
    simp

theorem Delivers.cons {record : Record}
    (hcall : (perform disk .next).run r = ⟨.ok (some record), r', log⟩)
    (h : Delivers disk r' records) : Delivers disk r (record :: records) := by
  intro n
  cases n with
  | zero => rfl
  | succ n => exact answers_replicate_succ hcall (h n)

/-- A reader delivers what it has still to give, where a call takes the first record of that. -/
theorem delivers_of_step {Gives : ρ → List Record → Prop}
    (hstep : ∀ r records, Gives r records → ∃ r' log,
      (perform disk .next).run r = ⟨.ok records.head?, r', log⟩ ∧ Gives r' records.tail)
    (h : Gives r records) : Delivers disk r records := by
  intro n
  induction n generalizing r records with
  | zero => rfl
  | succ n ih =>
    obtain ⟨r', log, hcall, hgives⟩ := hstep r records h
    exact answers_replicate_succ hcall (ih hgives)

end

end RecordReader

namespace TableReader

open TableCursor (Unread SameView)

variable {disk : Disk} {p : Projection}

/-- Cursors that project by `p` have still to give some records, one cursor after another. -/
inductive Pending (disk : Disk) (p : Projection) : List TableCursor → List Record → Prop where
  | nil : Pending disk p [] []
  | cons {s : TableCursor} {cursors : List TableCursor} {rows : List Record}
      {records : List Record} (unread : s.Unread disk rows)
      (columns : s.columns = p.selectors.map (FieldOrigin.of s.table.schema))
      (rest : Pending disk p cursors records) :
      Pending disk p (s :: cursors) (rows.map (p.ofRow s.table.schema) ++ records)

/-- The next record of cursors that are gone through in turn is the first of those to come. -/
theorem nextInTurn_of_pending {cursors : List TableCursor} {records : List Record}
    (hp : p.SelectsOnce) (h : Pending disk p cursors records) :
    ∃ cursors', nextInTurn disk cursors = ⟨.ok records.head?, cursors', []⟩
      ∧ Pending disk p cursors' records.tail := by
  induction h with
  | nil => exact ⟨[], rfl, .nil⟩
  | @cons s cursors rows records hunread hcolumns hrest ih =>
    cases rows with
    | nil =>
      -- this table has ended, and the reader goes on with the ones behind it
      obtain ⟨s', hnext, -, -⟩ := TableCursor.nextRow_of_unread_nil hunread
      obtain ⟨cursors', hcursors, hpending⟩ := ih
      refine ⟨cursors', ?_, hpending⟩
      unfold nextInTurn
      rw [hnext, hcursors]
      rfl
    | cons row rows =>
      -- the row is handed out, and its table keeps its place
      obtain ⟨s', hnext, hunread', hsame⟩ := TableCursor.nextRow_of_unread_cons hunread
      have hcolumns' : s'.columns = p.selectors.map (FieldOrigin.of s'.table.schema) := by
        rw [hsame.columns, hsame.table]
        exact hcolumns
      refine ⟨s' :: cursors, ?_, ?_⟩
      · unfold nextInTurn
        rw [hnext]
        simp only [TableCursor.projected_eq hp hcolumns', hsame.table]
        rfl
      · have hpending := Pending.cons hunread' hcolumns' hrest
        rw [hsame.table] at hpending
        exact hpending

/-- What is left of a reader that goes through its tables in turn. It is the invariant that carries
its calls: each of them takes the first record away. -/
structure LeftInTurn (disk : Disk) (p : Projection) (r : TableReader)
    (records : List Record) : Prop where
  unsorted : r.sorted = false
  pending : Pending disk p r.cursors records

/-- One call takes the first of the records that a reader has to give in turn. -/
theorem next_of_leftInTurn {r : TableReader} {records : List Record} (hp : p.SelectsOnce)
    (h : LeftInTurn disk p r records) : ∃ r' log,
      (RecordReader.perform disk .next).run r = ⟨.ok records.head?, r', log⟩
        ∧ LeftInTurn disk p r' records.tail := by
  obtain ⟨cursors, hnext, hpending⟩ := nextInTurn_of_pending hp h.pending
  refine ⟨{ r with cursors := cursors }, [], ?_, h.unsorted, hpending⟩
  show (next disk).run r = _
  rw [run_next_of_unsorted disk (by simp [h.unsorted]), hnext]

/-- A reader that goes through its tables in turn delivers the records that are pending. -/
theorem delivers_of_pending {r : TableReader} {records : List Record} (hp : p.SelectsOnce)
    (hr : r.sorted = false) (h : Pending disk p r.cursors records) :
    RecordReader.Delivers disk r records :=
  RecordReader.delivers_of_step (fun _ _ => next_of_leftInTurn hp) ⟨hr, h⟩

/-! ## Opening -/

/-- The records that a projection makes of the rows of tables, one table after another. -/
def recordsOf (p : Projection) (tables : List Table) (rows : List (List Record)) : List Record :=
  (List.zipWith (fun t rs => rs.map (p.ofRow t.schema)) tables rows).flatten

theorem recordsOf_cons (p : Projection) (t : Table) (tables : List Table) (rs : List Record)
    (rows : List (List Record)) :
    recordsOf p (t :: tables) (rs :: rows)
      = rs.map (p.ofRow t.schema) ++ recordsOf p tables rows := rfl

theorem exists_pending_of_holdsRows (p : Projection) {tables : List Table}
    {rows : List (List Record)} (h : List.Forall₂ (Table.HoldsRows disk) tables rows) :
    ∃ cursors, tables.mapM (TableCursor.openTable disk p none) = .ok cursors
      ∧ Pending disk p cursors (recordsOf p tables rows) := by
  induction h with
  | nil => exact ⟨[], rfl, .nil⟩
  | @cons t rs tables rows hrow _ ih =>
    obtain ⟨file, hfile, hunread⟩ := TableCursor.exists_openAt_of_holdsRows hrow
    obtain ⟨cursors, hcursors, hpending⟩ := ih
    let s : TableCursor := ⟨t, file, p.selectors.map (FieldOrigin.of t.schema), none, none, false⟩
    have hs : TableCursor.openTable disk p none t = .ok s :=
      TableCursor.openTable_eq_ok_iff.2 ⟨none, file, rfl, hfile, rfl⟩
    exact ⟨s :: cursors,
      Results.mapM_eq_ok_iff.2 (.cons hs (Results.mapM_eq_ok_iff.1 hcursors)),
      .cons (hunread _ _) rfl hpending⟩

/-- Tables that hold rows open without an order, and their reader delivers the projections of all
rows, one table after another. -/
theorem exists_delivers_of_holdsRows {tables : List Table} {rows : List (List Record)}
    {logical : Schema} {text : String} (h : List.Forall₂ (Table.HoldsRows disk) tables rows)
    (hunion : Schema.unionOf (tables.map Table.schema) = .ok logical)
    (hp : Projection.parse logical text = .ok p) :
    ∃ r, ofTables disk tables none text = .ok r ∧ r.schema = p.schema
      ∧ RecordReader.Delivers disk r (recordsOf p tables rows) := by
  obtain ⟨cursors, hcursors, hpending⟩ := exists_pending_of_holdsRows p h
  have honce := Projection.selectsOnce_of_parse hp hunion
  refine ⟨⟨p.schema, false, cursors⟩, ?_, rfl, delivers_of_pending honce rfl hpending⟩
  exact ofTables_eq_ok_iff.2 ⟨logical, p, cursors, hunion, hp, hcursors, rfl⟩

end TableReader

end TableScan
