import TableScan.Proofs.Reader.Merge

/-!
# Readers through different projections

A projection only decides what is made of a row that is taken: which rows come, and in which order,
does not depend on it. `TableReader.through` is a reader with another projection in place of its
own.

Main statement: if one projection can be made from what another one makes, by a function of records,
then the reader through the one answers every call as the reader through the other does, with that
function applied to its records (`answers_through`).
-/

namespace TableScan

namespace TableCursor

variable {disk : Disk} {p q : Projection} {s : TableCursor}

/-- The cursor through another projection. -/
def through (p : Projection) (s : TableCursor) : TableCursor :=
  { s with columns := p.selectors.map (FieldOrigin.of s.table.schema) }

@[simp] theorem head_through (p : Projection) (s : TableCursor) :
    (s.through p).head = s.head := rfl

/-- A row is projected by the other projection, whatever the cursor was opened through. -/
theorem projected_through (hp : p.SelectsOnce) (s : TableCursor) (row : Record) :
    (s.through p).projected row = p.ofRow s.table.schema row :=
  projected_eq hp rfl row

/-- A step that does the same whatever the projection is. -/
def Blind {α : Type} (step : Step TableCursor α) : Prop :=
  ∀ p s, step (s.through p) = ⟨(step s).result, (step s).state.through p, (step s).log⟩

/-- Reading a row is blind: the row is decoded whole, by the schema of its table, before any
projection is looked at. -/
theorem blind_nextRow (disk : Disk) : Blind (nextRow disk) := by
  intro p s
  unfold nextRow
  by_cases hdone : s.done = true
  · rw [if_pos hdone, if_pos (show (s.through p).done = true from hdone)]
  · rw [if_neg hdone, if_neg (show ¬ (s.through p).done = true from hdone)]
    rw [show (s.through p).file = s.file from rfl]
    -- both cursors stand at the same place of the same file, and decode by the same schema
    obtain ⟨result, file, log⟩ := RowFile.next disk s.file
    cases result with
    | error e => rfl
    | ok payload =>
      cases payload with
      | none => rfl
      | some payload =>
        simp only
        rw [show (s.through p).rowOf payload = s.rowOf payload from rfl]
        cases s.rowOf payload with
        | error e => rfl
        | ok row => rfl

/-- A head is a whole row with its key, so the one that is loaded does not depend on the
projection. -/
theorem blind_loadHead (disk : Disk) : Blind (loadHead disk) := by
  intro p s
  unfold loadHead
  rw [head_through]
  cases hhead : s.head with
  | some shown => rfl
  | none =>
    rw [blind_nextRow disk p s]
    obtain ⟨result, s', log⟩ := nextRow disk s
    cases result with
    | error e => rfl
    | ok row =>
      cases row with
      | none => rfl
      | some row =>
        simp only [Option.isSome_none, Bool.false_eq_true, if_false]
        rw [show (s'.through p).keyOf row = s'.keyOf row from rfl]
        cases s'.keyOf row with
        | error e => rfl
        | ok key => rfl

/-- Where no head can be loaded, the rows below a key are dropped no further. -/
theorem dropBelow_of_error {disk : Disk} {key : RowKey} {s s' : TableCursor} {e : LoadError}
    {log : List Log.Entry} (hload : loadHead disk s = ⟨.error e, s', log⟩) :
    dropBelow disk key s = ⟨.error e, s', log⟩ := by
  unfold dropBelow
  split
  · next heq =>
    rw [hload] at heq
    cases heq
    rfl
  · next heq =>
    rw [hload] at heq
    cases heq

/-- Which rows are dropped is decided by their keys alone. -/
theorem blind_dropBelow (disk : Disk) (key : RowKey) : Blind (dropBelow disk key) := by
  intro p s
  -- along the calls of the loop itself: it ends by an error, by the end of the file or by a row
  -- that is not below the key
  induction s using dropBelow.induct disk key with
  | case1 s e s' log hload =>
    have hload' : loadHead disk (s.through p) = ⟨.error e, s'.through p, log⟩ := by
      rw [blind_loadHead disk p s, hload]
    rw [dropBelow_of_error hload', dropBelow_of_error hload]
  | case2 s s' log hload hhead =>
    have hload' : loadHead disk (s.through p) = ⟨.ok (), s'.through p, log⟩ := by
      rw [blind_loadHead disk p s, hload]
    rw [dropBelow_of_head_none hload' hhead, dropBelow_of_head_none hload hhead]
  | case3 s s' log hload k row hhead hlt ih =>
    have hload' : loadHead disk (s.through p) = ⟨.ok (), s'.through p, log⟩ := by
      rw [blind_loadHead disk p s, hload]
    rw [dropBelow_of_head_some hload' hhead, dropBelow_of_head_some hload hhead, if_pos hlt,
      if_pos hlt, show (s'.through p).dropHead = s'.dropHead.through p from rfl, ih]
  | case4 s s' log hload k row hhead hnot =>
    have hload' : loadHead disk (s.through p) = ⟨.ok (), s'.through p, log⟩ := by
      rw [blind_loadHead disk p s, hload]
    rw [dropBelow_of_head_some hload' hhead, dropBelow_of_head_some hload hhead, if_neg hnot,
      if_neg hnot]

end TableCursor

namespace TableReader

variable {disk : Disk} {p q : Projection} {f : Record → Record}

/-- The reader through another projection. -/
def through (p : Projection) (r : TableReader) : TableReader :=
  { r with schema := p.schema, cursors := r.cursors.map (TableCursor.through p) }

/-! ## Steps of all cursors -/

/-- A step that is blind for each cursor is blind for all of them together, also where it fails at
one. -/
theorem forCursors_through {step : Step TableCursor Unit} (hstep : TableCursor.Blind step)
    (p : Projection) (cursors : List TableCursor) :
    forCursors step (cursors.map (TableCursor.through p))
      = ⟨(forCursors step cursors).result,
        (forCursors step cursors).state.map (TableCursor.through p),
        (forCursors step cursors).log⟩ := by
  induction cursors with
  | nil => rfl
  | cons s rest ih =>
    rw [List.map_cons]
    unfold forCursors
    rw [hstep p s, ih]
    obtain ⟨result, s', log⟩ := step s
    cases result with
    | error e => rfl
    | ok _ => rfl

/-- The least key is the one of a head, and no projection is used to find it. -/
theorem leastKey_through (p : Projection) (cursors : List TableCursor) :
    leastKey (cursors.map (TableCursor.through p)) = leastKey cursors := by
  induction cursors with
  | nil => rfl
  | cons s rest ih =>
    rw [List.map_cons]
    unfold leastKey
    rw [ih, TableCursor.head_through]

/-! ## Records -/

section

variable (hp : p.SelectsOnce) (hq : q.SelectsOnce)
  (hf : ∀ schema row, p.ofRow schema row = f (q.ofRow schema row))

include hp hq hf

/-- The record that is taken is the one through `q` with `f` applied to it, and the cursors that are
left are those through `q` with other columns. -/
theorem takeKey_through (key : RowKey) (cursors : List TableCursor) :
    takeKey key (cursors.map (TableCursor.through p))
      = ((takeKey key (cursors.map (TableCursor.through q))).1.map f,
        (takeKey key (cursors.map (TableCursor.through q))).2.map (TableCursor.through p)) := by
  -- on the cursors up to the one whose head has the key: its row is projected, and the cursors
  -- behind it are left alone
  induction cursors with
  | nil => rfl
  | cons s rest ih =>
    -- a cursor keeps nothing of the projection that it was given before
    have hrest : (rest.map (TableCursor.through q)).map (TableCursor.through p)
        = rest.map (TableCursor.through p) := by
      rw [List.map_map]
      rfl
    rw [List.map_cons, List.map_cons]
    unfold takeKey
    rw [TableCursor.head_through, TableCursor.head_through, ih]
    cases s.head with
    | none => rfl
    | some shown =>
      obtain ⟨k, row⟩ := shown
      by_cases hk : k = key
      · simp only [if_pos hk, TableCursor.projected_through hp, TableCursor.projected_through hq,
          hf, Option.map_some, List.map_cons, hrest]
        rfl
      · simp only [if_neg hk]
        rfl

/-- The same of the record with the least key, which both readers take from the same cursor. -/
theorem takeLeast_through (cursors : List TableCursor) :
    takeLeast (cursors.map (TableCursor.through p))
      = ((takeLeast (cursors.map (TableCursor.through q))).1.map f,
        (takeLeast (cursors.map (TableCursor.through q))).2.map (TableCursor.through p)) := by
  unfold takeLeast
  rw [leastKey_through, leastKey_through]
  cases leastKey cursors with
  | none =>
    rw [List.map_map]
    rfl
  | some key => exact takeKey_through hp hq hf key cursors

/-- The next record of a merge is the one through `q` with `f` applied to it. -/
theorem nextMerged_through (cursors : List TableCursor) :
    nextMerged disk (cursors.map (TableCursor.through p))
      = ⟨(nextMerged disk (cursors.map (TableCursor.through q))).result.map (Option.map f),
        (nextMerged disk (cursors.map (TableCursor.through q))).state.map (TableCursor.through p),
        (nextMerged disk (cursors.map (TableCursor.through q))).log⟩ := by
  -- showing the heads reads no projection, so only the taken record differs
  have hmerged : ∀ cs, nextMerged disk cs =
      match forCursors (TableCursor.loadHead disk) cs with
      | ⟨.error e, cs', log⟩ => ⟨.error e, cs', log⟩
      | ⟨.ok (), cs', log⟩ => ⟨.ok (takeLeast cs').1, (takeLeast cs').2, log ++ []⟩ := by
    intro cs
    show Step.andThen (forCursors (TableCursor.loadHead disk)) _ cs = _
    unfold Step.andThen
    obtain ⟨result, cs', log⟩ := forCursors (TableCursor.loadHead disk) cs
    cases result with
    | error e => rfl
    | ok _ => rfl
  rw [hmerged, hmerged, forCursors_through (TableCursor.blind_loadHead disk),
    forCursors_through (TableCursor.blind_loadHead disk)]
  obtain ⟨result, cs', log⟩ := forCursors (TableCursor.loadHead disk) cursors
  cases result with
  | error e =>
    simp only [List.map_map]
    rfl
  | ok _ =>
    simp only [takeLeast_through hp hq hf cs']
    rfl

/-- The next record of tables in turn is the one through `q` with `f` applied to it. -/
theorem nextInTurn_through (cursors : List TableCursor) :
    nextInTurn disk (cursors.map (TableCursor.through p))
      = ⟨(nextInTurn disk (cursors.map (TableCursor.through q))).result.map (Option.map f),
        (nextInTurn disk (cursors.map (TableCursor.through q))).state.map (TableCursor.through p),
        (nextInTurn disk (cursors.map (TableCursor.through q))).log⟩ := by
  -- on the tables: one that has ended hands over to those behind it
  induction cursors with
  | nil => rfl
  | cons s rest ih =>
    have hrest : (rest.map (TableCursor.through q)).map (TableCursor.through p)
        = rest.map (TableCursor.through p) := by
      rw [List.map_map]
      rfl
    rw [List.map_cons, List.map_cons]
    unfold nextInTurn
    rw [TableCursor.blind_nextRow disk p s, TableCursor.blind_nextRow disk q s, ih]
    obtain ⟨result, s', log⟩ := TableCursor.nextRow disk s
    cases result with
    | error e =>
      simp only [List.map_cons, hrest]
      rfl
    | ok row =>
      cases row with
      | none => rfl
      | some row =>
        -- only here is a row projected, once by each of the two
        simp only [TableCursor.projected_through hp, TableCursor.projected_through hq, hf,
          List.map_cons, hrest]
        rfl

/-- The next record of a reader is the one through `q` with `f` applied to it, merged or not. -/
theorem next_through (disk : Disk) (r : TableReader) :
    (next disk).run (r.through p)
      = ⟨((next disk).run (r.through q)).result.map (Option.map f),
        ((next disk).run (r.through q)).state.through p, ((next disk).run (r.through q)).log⟩ := by
  by_cases hsorted : r.sorted = true
  · have hsortedp : (r.through p).sorted = true := hsorted
    have hsortedq : (r.through q).sorted = true := hsorted
    rw [run_next_of_sorted disk hsortedp, run_next_of_sorted disk hsortedq,
      show (r.through p).cursors = r.cursors.map (TableCursor.through p) from rfl,
      nextMerged_through hp hq hf]
    rfl
  · have hsortedp : ¬ (r.through p).sorted = true := hsorted
    have hsortedq : ¬ (r.through q).sorted = true := hsorted
    rw [run_next_of_unsorted disk hsortedp, run_next_of_unsorted disk hsortedq,
      show (r.through p).cursors = r.cursors.map (TableCursor.through p) from rfl,
      nextInTurn_through hp hq hf]
    rfl

end

/-- Going on with a key answers no record, so it is blind, whatever the two projections are. -/
theorem seekTo_through (disk : Disk) (key : RowKey) (p q : Projection) (r : TableReader) :
    (seekTo disk key).run (r.through p)
      = ⟨((seekTo disk key).run (r.through q)).result,
        ((seekTo disk key).run (r.through q)).state.through p,
        ((seekTo disk key).run (r.through q)).log⟩ := by
  by_cases hsorted : r.sorted = true
  · have hp : (r.through p).sorted = true := hsorted
    have hq : (r.through q).sorted = true := hsorted
    rw [run_seekTo_of_sorted disk key hp, run_seekTo_of_sorted disk key hq,
      show (r.through p).cursors = r.cursors.map (TableCursor.through p) from rfl,
      show (r.through q).cursors = r.cursors.map (TableCursor.through q) from rfl,
      forCursors_through (TableCursor.blind_dropBelow disk key),
      forCursors_through (TableCursor.blind_dropBelow disk key)]
    unfold through
    simp only [List.map_map]
    rfl
  · have hp : ¬ (r.through p).sorted = true := hsorted
    have hq : ¬ (r.through q).sorted = true := hsorted
    rw [run_seekTo_of_unsorted disk key hp, run_seekTo_of_unsorted disk key hq]
    unfold through
    simp only [List.map_map]
    rfl

/-- One call through `p` answers as the call through `q`, with `f` applied to a record, and leaves a
reader that again differs in the projection alone. This is the step of `answers_through`. -/
theorem perform_through (disk : Disk) (hp : p.SelectsOnce) (hq : q.SelectsOnce)
    (hf : ∀ schema row, p.ofRow schema row = f (q.ofRow schema row)) (call : ReaderCall)
    (r : TableReader) :
    (RecordReader.perform disk call).run (r.through p)
      = ⟨((RecordReader.perform disk call).run (r.through q)).result.map (Option.map f),
        ((RecordReader.perform disk call).run (r.through q)).state.through p,
        ((RecordReader.perform disk call).run (r.through q)).log⟩ := by
  cases call with
  | next => exact next_through hp hq hf disk r
  | seek key =>
    -- a seek answers nothing that `f` could be applied to
    have hother := seekTo_through disk key p q r
    rcases hseek : (seekTo disk key).run (r.through q) with ⟨result, r', log⟩
    rw [hseek] at hother
    cases result with
    | error e =>
      have hcall : (RecordReader.perform disk (.seek key)).run (r.through q)
          = ⟨.error e, r', log⟩ := Step.run_bind_error hseek
      rw [hcall]
      exact Step.run_bind_error hother
    | ok _ =>
      have hcall : (RecordReader.perform disk (.seek key)).run (r.through q)
          = ⟨.ok none, r', log ++ []⟩ := Step.run_bind_ok hseek
      rw [hcall]
      exact Step.run_bind_ok hother

/-- Through a projection that can be made from another one by a function, every sequence of calls is
answered as through the other one, with the function applied to the records. -/
theorem answers_through (disk : Disk) (hp : p.SelectsOnce) (hq : q.SelectsOnce)
    (hf : ∀ schema row, p.ofRow schema row = f (q.ofRow schema row)) (r : TableReader)
    (calls : List ReaderCall) :
    RecordReader.answers disk (r.through p) calls
      = (RecordReader.answers disk (r.through q) calls).map (Except.map (Option.map f)) := by
  -- on the calls: what a call leaves is again a reader through `p` next to one through `q`
  induction calls generalizing r with
  | nil => rfl
  | cons call calls ih =>
    have hcall := perform_through disk hp hq hf call r
    -- the other reader is left in a state that is one through its own projection again
    have hown := perform_through (p := q) (q := q) (f := id) disk hq hq (fun _ _ => rfl) call r
    have hstate := congrArg Outcome.state hown
    simp only at hstate
    rw [RecordReader.answers_cons hcall, RecordReader.answers_cons rfl, List.map_cons, ih, ← hstate]
    rfl

/-! ## Opening -/

/-- A table opens through every projection if through one, and the cursor differs in its columns
alone. -/
theorem openTable_through {disk : Disk} {p : Projection} {order : Option SortOrder} {t : Table}
    {s : TableCursor} (h : TableCursor.openTable disk p order t = .ok s) (q : Projection) :
    s.through p = s ∧ TableCursor.openTable disk q order t = .ok (s.through q) := by
  obtain ⟨keys, file, hkeys, hfile, rfl⟩ := TableCursor.openTable_eq_ok_iff.1 h
  exact ⟨rfl, TableCursor.openTable_eq_ok_iff.2 ⟨keys, file, hkeys, hfile, rfl⟩⟩

/-- Tables that open through one projection open through every other one that resolves, and the
readers differ in nothing else. -/
theorem ofTables_through {disk : Disk} {tables : List Table} {order : Option SortOrder}
    {logical : Schema} {text text' : String} {r : TableReader}
    (h : ofTables disk tables order text = .ok r)
    (hunion : Schema.unionOf (tables.map Table.schema) = .ok logical)
    (hp : Projection.parse logical text = .ok p) (hq : Projection.parse logical text' = .ok q) :
    r.through p = r ∧ ofTables disk tables order text' = .ok (r.through q) := by
  obtain ⟨logical', p', cursors, hunion', hp', hcursors, rfl⟩ := ofTables_eq_ok_iff.1 h
  -- the union and the projection of an open reader are determined
  obtain rfl : logical = logical' := Except.ok.inj (hunion.symm.trans hunion')
  obtain rfl : p = p' := Except.ok.inj (hp.symm.trans hp')
  have hmap : cursors.map (TableCursor.through p) = cursors
      ∧ tables.mapM (TableCursor.openTable disk q order)
        = .ok (cursors.map (TableCursor.through q)) := by
    -- cursor by cursor, where each was opened through `p`
    have hpaired := Results.mapM_eq_ok_iff.1 hcursors
    clear hcursors hunion hunion' h
    rw [Results.mapM_eq_ok_iff]
    induction hpaired with
    | nil => exact ⟨rfl, .nil⟩
    | cons hs _ ih =>
      obtain ⟨hown, hother⟩ := openTable_through hs q
      exact ⟨by rw [List.map_cons, hown, ih.1], .cons hother ih.2⟩
  refine ⟨?_, ofTables_eq_ok_iff.2 ⟨logical, q, _, hunion, hq, hmap.2, rfl⟩⟩
  unfold through
  rw [hmap.1]

end TableReader

end TableScan
