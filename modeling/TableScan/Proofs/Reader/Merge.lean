import TableScan.Proofs.Projection.Resolved
import TableScan.Proofs.Reader.Calls
import TableScan.Proofs.Table.Cursors

/-!
# Merging readers

A reader that merges tables by key holds one cursor for each table. `Merges` says which rows such a
reader has still to give: those of all its cursors, sorted by key, where each cursor has its own in
ascending order.

Main statements: taking the next record takes the first of these rows (`next_of_merges`), going on
with a key leaves out those below it (`seekTo_of_merges`), and so every sequence of calls answers as
one sorted list would (`answers_of_merges`).
-/

namespace TableScan

namespace KeyedRow

/-- What calls of a sorted list of rows answer: going on with a key leaves out the rows below it,
and the next record is the projection of the first row, which is taken. -/
def answers (p : Projection) : List KeyedRow → List ReaderCall → List (Option Record)
  | _, [] => []
  | l, .seek key :: calls =>
    none :: answers p (l.filter fun e => !decide (e.key < key)) calls
  | l, .next :: calls =>
    (l.head?.map fun e => p.ofRow e.schema e.row) :: answers p l.tail calls

end KeyedRow

namespace TableReader

open KeyedRow (Ascending sortByKey)
open TableCursor (Queue Shows)

variable {disk : Disk} {p : Projection}

/-! ## Opening -/

theorem ofTables_eq_ok_iff {tables : List Table} {order : Option SortOrder} {text : String}
    {r : TableReader} :
    ofTables disk tables order text = .ok r ↔
      ∃ logical p cursors, Schema.unionOf (tables.map Table.schema) = .ok logical
        ∧ Projection.parse logical text = .ok p
        ∧ tables.mapM (TableCursor.openTable disk p order) = .ok cursors
        ∧ r = ⟨p.schema, order.isSome, cursors⟩ := by
  unfold ofTables
  rw [Results.bind_eq_ok_iff]
  constructor
  · rintro ⟨logical, hunion, h⟩
    obtain ⟨p, hp, h⟩ := Results.bind_eq_ok_iff.1 h
    obtain ⟨cursors, hcursors, h⟩ := Results.bind_eq_ok_iff.1 h
    exact ⟨logical, p, cursors, hunion, hp, hcursors, (Except.ok.inj h).symm⟩
  · rintro ⟨logical, p, cursors, hunion, hp, hcursors, rfl⟩
    exact ⟨logical, hunion, Results.bind_eq_ok_iff.2
      ⟨p, hp, Results.bind_eq_ok_iff.2 ⟨cursors, hcursors, rfl⟩⟩⟩

/-! ## Steps of all cursors -/

/-- A step that does one thing to the queue of each cursor does it to all of them. -/
theorem forCursors_of_forall₂ {step : Step TableCursor Unit} {f : List KeyedRow → List KeyedRow}
    {R S : TableCursor → List KeyedRow → Prop}
    (hstep : ∀ s q, R s q → ∃ s', step s = ⟨.ok (), s', []⟩ ∧ S s' (f q))
    {cursors : List TableCursor} {qs : List (List KeyedRow)} (h : List.Forall₂ R cursors qs) :
    ∃ cursors', forCursors step cursors = ⟨.ok (), cursors', []⟩
      ∧ List.Forall₂ S cursors' (qs.map f) := by
  induction h with
  | nil => exact ⟨[], rfl, .nil⟩
  | cons hs _ ih =>
    obtain ⟨s', hs', hS⟩ := hstep _ _ hs
    obtain ⟨rest', hrest', hSs⟩ := ih
    refine ⟨s' :: rest', ?_, .cons hS hSs⟩
    unfold forCursors
    rw [hs', hrest']
    rfl

/-- What a step makes of each cursor holds of them all, also where one fails and ends the run. -/
theorem forall₂_forCursors {R : TableCursor → TableCursor → Prop} {step : Step TableCursor Unit}
    (hrefl : ∀ s, R s s) (hstep : ∀ s, R s (step s).state) (cursors : List TableCursor) :
    List.Forall₂ R cursors (forCursors step cursors).state := by
  induction cursors with
  | nil => exact .nil
  | cons s rest ih =>
    have hs := hstep s
    unfold forCursors
    generalize step s = o at hs
    obtain ⟨result, s', log⟩ := o
    cases result with
    | error cause => exact .cons hs (List.forall₂_same.2 fun t _ => hrefl t)
    | ok _ => exact .cons hs ih

/-- A merge takes the least of the heads, once all of them show. -/
theorem nextMerged_of_shown {cursors cursors' : List TableCursor} {log : List Log.Entry}
    (h : forCursors (TableCursor.loadHead disk) cursors = ⟨.ok (), cursors', log⟩) :
    (nextMerged disk cursors).result = .ok (takeLeast cursors').1
      ∧ (nextMerged disk cursors).state = (takeLeast cursors').2 := by
  have hrun : (nextMerged disk).run cursors = _ := Step.run_bind_ok h
  exact ⟨congrArg Outcome.result hrun, congrArg Outcome.state hrun⟩

theorem nextMerged_of_failed {cursors cursors' : List TableCursor} {cause : LoadError}
    {log : List Log.Entry}
    (h : forCursors (TableCursor.loadHead disk) cursors = ⟨.error cause, cursors', log⟩) :
    nextMerged disk cursors = ⟨.error cause, cursors', log⟩ := Step.run_bind_error h

/-! ## The least head -/

theorem eq_nil_of_leastKey_eq_none {cursors : List TableCursor} {qs : List (List KeyedRow)}
    (hshows : List.Forall₂ Shows cursors qs) (h : leastKey cursors = none) :
    ∀ q ∈ qs, q = [] := by
  induction hshows with
  | nil =>
    intro q hq
    cases hq
  | @cons s q cursors qs hs _ ih =>
    -- an ended cursor leaves the question to the rest, any other one shows a key
    obtain ⟨hhead, rfl⟩ | ⟨e, q', hhead, -, rfl⟩ := hs.cases
    · unfold leastKey at h
      rw [hhead] at h
      intro q hq
      rcases List.mem_cons.1 hq with rfl | hq
      · rfl
      · exact ih h q hq
    · unfold leastKey at h
      rw [hhead] at h
      split at h
      · next hnone => cases hnone
      · cases h
      · split at h
        · cases h
        · cases h

/-- The least key is the key of a row in front, and no row in front is below it. -/
theorem leastKey_eq_some {cursors : List TableCursor} {qs : List (List KeyedRow)} {key : RowKey}
    (hshows : List.Forall₂ Shows cursors qs) (h : leastKey cursors = some key) :
    (∀ q ∈ qs, ∀ e ∈ q.head?, ¬ e.key < key) ∧ ∃ q ∈ qs, ∃ e ∈ q.head?, e.key = key := by
  induction hshows generalizing key with
  | nil => cases h
  | @cons s q cursors qs hs hrest ih =>
    -- an ended cursor; the only one that shows a key; and one among several, where the
    -- lesser of its key and the least key of the rest is kept
    obtain ⟨hhead, rfl⟩ | ⟨e, q', hhead, -, rfl⟩ := hs.cases
    · unfold leastKey at h
      rw [hhead] at h
      obtain ⟨hle, q, hq, e, he, hkey⟩ := ih h
      refine ⟨?_, q, List.mem_cons_of_mem _ hq, e, he, hkey⟩
      intro q hq
      rcases List.mem_cons.1 hq with rfl | hq
      · intro e he
        cases he
      · exact hle q hq
    · unfold leastKey at h
      rw [hhead] at h
      cases hleast : leastKey cursors with
      | none =>
        rw [hleast] at h
        obtain rfl : e.key = key := Option.some.inj h
        refine ⟨?_, e :: q', List.mem_cons_self, e, rfl, rfl⟩
        intro q hq f hf
        rcases List.mem_cons.1 hq with rfl | hq
        · obtain rfl : e = f := Option.some.inj hf
          exact List.lt_irrefl e.key.bytes
        · rw [eq_nil_of_leastKey_eq_none hrest hleast q hq] at hf
          cases hf
      | some least =>
        rw [hleast] at h
        obtain ⟨hle, q, hq, f, hf, hkey⟩ := ih hleast
        simp only at h
        split at h
        · next hlt =>
          obtain rfl : least = key := Option.some.inj h
          refine ⟨?_, q, List.mem_cons_of_mem _ hq, f, hf, hkey⟩
          intro q hq g hg
          rcases List.mem_cons.1 hq with rfl | hq
          · obtain rfl : e = g := Option.some.inj hg
            exact RowKey.not_lt_of_lt hlt
          · exact hle q hq g hg
        · next hnot =>
          obtain rfl : e.key = key := Option.some.inj h
          refine ⟨?_, e :: q', List.mem_cons_self, e, rfl, rfl⟩
          intro q hq g hg
          rcases List.mem_cons.1 hq with rfl | hq
          · obtain rfl : e = g := Option.some.inj hg
            exact List.lt_irrefl e.key.bytes
          · exact RowKey.not_lt_trans hnot (hle q hq g hg)

/-- Taking a key that stands in front, and none below it, takes the first row of this key: all rows
in front before it are above it. -/
theorem takeKey_of_queues {cursors : List TableCursor} {qs : List (List KeyedRow)} {key : RowKey}
    (hp : p.SelectsOnce)
    (h : List.Forall₂ (fun s q => Queue disk p s q ∧ s.Shows q) cursors qs)
    (hle : ∀ q ∈ qs, ∀ e ∈ q.head?, ¬ e.key < key)
    (hkey : ∃ q ∈ qs, ∃ e ∈ q.head?, e.key = key) :
    ∃ before e q behind cursors', qs = before ++ (e :: q) :: behind ∧ e.key = key
      ∧ (∀ b ∈ before, ∀ a ∈ b.head?, key < a.key)
      ∧ takeKey key cursors = (some (p.ofRow e.schema e.row), cursors')
      ∧ List.Forall₂ (Queue disk p) cursors' (before ++ q :: behind) := by
  induction h with
  | nil =>
    obtain ⟨q, hq, _⟩ := hkey
    cases hq
  | @cons s q cursors qs hs hrest ih =>
    obtain ⟨hqueue, hshows⟩ := hs
    by_cases hfront : ∃ e ∈ q.head?, e.key = key
    · -- the first cursor shows the key
      obtain ⟨e, he, hek⟩ := hfront
      obtain ⟨q', rfl⟩ : ∃ q', q = e :: q' := by
        cases q with
        | nil => cases he
        | cons f q' =>
          obtain rfl : f = e := Option.some.inj he
          exact ⟨q', rfl⟩
      obtain ⟨_, hnil⟩ | ⟨f, q'', hhead, hschema, hcons⟩ := hshows.cases
      · cases hnil
      · obtain ⟨rfl, rfl⟩ := List.cons.inj hcons
        refine ⟨[], e, q', qs, s.dropHead :: cursors, rfl, hek, ?_, ?_,
          .cons (hqueue.dropHead hshows) (hrest.imp fun _ _ hr => hr.1)⟩
        · intro b hb
          cases hb
        · unfold takeKey
          rw [hhead]
          simp only [hek, if_true]
          rw [TableCursor.projected_eq hp hqueue.columns, hschema]
    -- another cursor shows it, so this one stays as it is and stands above the key
    · obtain ⟨before, e, q', behind, cursors', rfl, hek, habove, htake, hqueues⟩ := ih
        (fun q hq => hle q (List.mem_cons_of_mem _ hq)) (by
          obtain ⟨q', hq', hfound⟩ := hkey
          rcases List.mem_cons.1 hq' with rfl | hq'
          · exact absurd hfound hfront
          · exact ⟨q', hq', hfound⟩)
      refine ⟨q :: before, e, q', behind, s :: cursors', rfl, hek, ?_, ?_, .cons hqueue hqueues⟩
      · intro b hb a ha
        rcases List.mem_cons.1 hb with rfl | hb
        · have hne : a.key ≠ key := fun hk => hfront ⟨a, ha, hk⟩
          exact RowKey.lt_of_not_lt_of_ne (hle b List.mem_cons_self a ha) hne
        · exact habove b hb a ha
      · unfold takeKey
        obtain ⟨hhead, rfl⟩ | ⟨f, q'', hhead, -, rfl⟩ := hshows.cases
        · rw [hhead, htake]
        · have hne : f.key ≠ key := fun hk => hfront ⟨f, rfl, hk⟩
          rw [hhead]
          simp only [if_neg hne, htake]

/-! ## The rows to come -/

/-- A reader that merges by key and projects by `p` has still to give some rows in their order. -/
structure Merges (disk : Disk) (p : Projection) (r : TableReader) (l : List KeyedRow) : Prop where
  sorted : r.sorted = true
  selectsOnce : p.SelectsOnce
  queues : ∃ qs, List.Forall₂ (Queue disk p) r.cursors qs ∧ (∀ q ∈ qs, Ascending q)
    ∧ l = sortByKey qs.flatten

variable {r : TableReader} {l : List KeyedRow}

theorem run_next_of_sorted (disk : Disk) {r : TableReader} (h : r.sorted = true) :
    (next disk).run r = ⟨(nextMerged disk r.cursors).result,
      { r with cursors := (nextMerged disk r.cursors).state },
      (nextMerged disk r.cursors).log⟩ := by
  have hget : (Step.get : Step TableReader TableReader).run r = ⟨.ok r, r, []⟩ := rfl
  unfold next
  rw [Step.run_bind_ok hget, if_pos h]
  rfl

theorem run_next_of_unsorted (disk : Disk) {r : TableReader} (h : ¬ r.sorted = true) :
    (next disk).run r = ⟨(nextInTurn disk r.cursors).result,
      { r with cursors := (nextInTurn disk r.cursors).state },
      (nextInTurn disk r.cursors).log⟩ := by
  have hget : (Step.get : Step TableReader TableReader).run r = ⟨.ok r, r, []⟩ := rfl
  unfold next
  rw [Step.run_bind_ok hget, if_neg h]
  rfl

theorem run_seekTo_of_sorted (disk : Disk) (key : RowKey) {r : TableReader}
    (h : r.sorted = true) :
    (seekTo disk key).run r =
      ⟨(forCursors (TableCursor.dropBelow disk key) r.cursors).result,
        { r with cursors := (forCursors (TableCursor.dropBelow disk key) r.cursors).state },
        (forCursors (TableCursor.dropBelow disk key) r.cursors).log⟩ := by
  have hget : (Step.get : Step TableReader TableReader).run r = ⟨.ok r, r, []⟩ := rfl
  unfold seekTo
  rw [Step.run_bind_ok hget, if_pos h]
  rfl

theorem run_seekTo_of_unsorted (disk : Disk) (key : RowKey) {r : TableReader}
    (h : ¬ r.sorted = true) :
    (seekTo disk key).run r = ⟨.error (.configuration .seekInUnsortedTable), r, []⟩ := by
  have hget : (Step.get : Step TableReader TableReader).run r = ⟨.ok r, r, []⟩ := rfl
  unfold seekTo
  rw [Step.run_bind_ok hget, if_neg h]
  rfl

/-- What the next call does to the queues: it takes the first of the least rows in front, if there
is a row at all. The rows of a queue need not be in the order of their keys. -/
theorem next_of_queues {qs : List (List KeyedRow)} (hp : p.SelectsOnce) (hsorted : r.sorted = true)
    (h : List.Forall₂ (Queue disk p) r.cursors qs) :
    (qs.flatten = [] ∧ ∃ r', (next disk).run r = ⟨.ok none, r', []⟩ ∧ r'.sorted = true
      ∧ List.Forall₂ (Queue disk p) r'.cursors qs)
    ∨ ∃ before e q behind r', qs = before ++ (e :: q) :: behind
      ∧ (∀ b ∈ before, ∀ a ∈ b.head?, e.key < a.key)
      ∧ (∀ b ∈ qs, ∀ a ∈ b.head?, ¬ a.key < e.key)
      ∧ (next disk).run r = ⟨.ok (some (p.ofRow e.schema e.row)), r', []⟩ ∧ r'.sorted = true
      ∧ List.Forall₂ (Queue disk p) r'.cursors (before ++ q :: behind) := by
  obtain ⟨cursors, hload, hloaded⟩ :=
    forCursors_of_forall₂ (f := id) (S := fun s q => Queue disk p s q ∧ s.Shows q)
      (fun s q hq => TableCursor.loadHead_of_queue hq) h
  rw [List.map_id] at hloaded
  -- the call shows the heads and takes the least one
  have hrun : (next disk).run r
      = ⟨.ok (takeLeast cursors).1, { r with cursors := (takeLeast cursors).2 }, []⟩ := by
    have hmerged : nextMerged disk r.cursors
        = ⟨.ok (takeLeast cursors).1, (takeLeast cursors).2, []⟩ := by
      show Step.andThen (forCursors (TableCursor.loadHead disk)) _ r.cursors = _
      unfold Step.andThen
      rw [hload]
      rfl
    rw [run_next_of_sorted disk hsorted, hmerged]
  rw [hrun]
  unfold takeLeast
  have hshows := hloaded.imp fun _ _ hs => hs.2
  cases hleast : leastKey cursors with
  | none =>
    -- no cursor shows a row, so there are none to come
    have hnil : qs.flatten = [] :=
      List.flatten_eq_nil_iff.2 (eq_nil_of_leastKey_eq_none hshows hleast)
    exact .inl ⟨hnil, { r with cursors := cursors }, rfl, hsorted, hloaded.imp fun _ _ hs => hs.1⟩
  | some key =>
    obtain ⟨hle, hkey⟩ := leastKey_eq_some hshows hleast
    obtain ⟨before, e, q, behind, cursors', hqs, rfl, habove, htake, hqueues'⟩ :=
      takeKey_of_queues hp hloaded hle hkey
    refine .inr ⟨before, e, q, behind, { r with cursors := cursors' }, hqs, habove, hle, ?_,
      hsorted, hqueues'⟩
    simp only [htake]

/-- The next record is the projection of the first row to come. -/
theorem next_of_merges (h : Merges disk p r l) :
    ∃ r', (next disk).run r = ⟨.ok (l.head?.map fun e => p.ofRow e.schema e.row), r', []⟩
      ∧ Merges disk p r' l.tail := by
  obtain ⟨qs, hqueues, hascending, rfl⟩ := h.queues
  rcases next_of_queues h.selectsOnce h.sorted hqueues with
    ⟨hnil, r', hrun, hsorted, hqueues'⟩
    | ⟨before, e, q, behind, r', rfl, habove, hle, hrun, hsorted, hqueues'⟩
  · rw [hnil, KeyedRow.sortByKey_nil]
    refine ⟨r', hrun, hsorted, h.selectsOnce, qs, hqueues', hascending, ?_⟩
    rw [hnil, KeyedRow.sortByKey_nil]
    rfl
  · -- the row that is taken is the first one of the sorted list: those of the tables before it
    -- are above it, and none behind it is below it
    have hfront : sortByKey (before ++ (e :: q) :: behind).flatten
        = e :: sortByKey (before ++ q :: behind).flatten := by
      rw [List.flatten_append, List.flatten_append, List.flatten_cons, List.flatten_cons,
        List.cons_append]
      refine KeyedRow.sortByKey_append_cons ?_ ?_
      · intro a ha
        obtain ⟨b, hb, hab⟩ := List.mem_flatten.1 ha
        exact (hascending b (List.mem_append_left _ hb)).forall_mem
          (fun _ _ hle hlt => RowKey.lt_of_lt_of_not_lt hlt hle) (habove b hb) a hab
      · -- the rows behind it in its own table, and those of the tables behind
        have hbehind : ∀ b ∈ (e :: q) :: behind, ∀ a ∈ b, ¬ a.key < e.key := by
          intro b hb
          have hmem : b ∈ before ++ (e :: q) :: behind := List.mem_append_right _ hb
          exact (hascending b hmem).forall_mem
            (fun _ _ hle hnot => RowKey.not_lt_trans hnot hle) (hle b hmem)
        intro a ha
        rcases List.mem_append.1 ha with ha | ha
        · exact hbehind _ List.mem_cons_self a (List.mem_cons_of_mem _ ha)
        · obtain ⟨b, hb, hab⟩ := List.mem_flatten.1 ha
          exact hbehind b (List.mem_cons_of_mem _ hb) a hab
    rw [hfront]
    refine ⟨r', hrun, hsorted, h.selectsOnce, before ++ q :: behind, hqueues', ?_, rfl⟩
    intro b hb
    rcases List.mem_append.1 hb with hb | hb
    · exact hascending b (List.mem_append_left _ hb)
    · rcases List.mem_cons.1 hb with rfl | hb
      · exact (hascending (e :: b) (List.mem_append_right _ List.mem_cons_self)).tail
      · exact hascending b (List.mem_append_right _ (List.mem_cons_of_mem _ hb))

/-- Going on with a key leaves out the rows below it. -/
theorem seekTo_of_merges (key : RowKey) (h : Merges disk p r l) :
    ∃ r', (seekTo disk key).run r = ⟨.ok (), r', []⟩
      ∧ Merges disk p r' (l.filter fun e => !decide (e.key < key)) := by
  obtain ⟨qs, hqueues, hascending, rfl⟩ := h.queues
  obtain ⟨cursors, hdrop, hdropped⟩ :=
    forCursors_of_forall₂ (S := Queue disk p)
      (fun s q hq => TableCursor.dropBelow_of_queue key hq) hqueues
  refine ⟨{ r with cursors := cursors }, ?_, h.sorted, h.selectsOnce, _, hdropped, ?_, ?_⟩
  · rw [run_seekTo_of_sorted disk key h.sorted, hdrop]
  · intro q hq
    obtain ⟨b, hb, rfl⟩ := List.mem_map.1 hq
    exact (hascending b hb).sublist (List.dropWhile_sublist _)
  -- each table loses the rows in front of it that are below the key; as it is ascending these
  -- are all of them
  · rw [KeyedRow.filter_sortByKey, List.filter_flatten]
    · congr 2
      refine List.map_congr_left fun b hb => ?_
      exact (KeyedRow.dropWhile_below (hascending b hb) key).symm
    · intro a b hab ha
      have hka : ¬ a.key < key := by simpa using ha
      simpa using fun hkb => hka (RowKey.lt_of_not_lt_of_lt hab hkb)

/-- Any calls are answered as the sorted rows to come answer them. -/
theorem answers_of_merges (h : Merges disk p r l) (calls : List ReaderCall) :
    RecordReader.answers disk r calls = (KeyedRow.answers p l calls).map .ok := by
  induction calls generalizing r l with
  | nil => rfl
  | cons call calls ih =>
    cases call with
    | seek key =>
      obtain ⟨r', hseek, hmerges⟩ := seekTo_of_merges key h
      have hcall : (RecordReader.perform disk (.seek key)).run r = ⟨.ok none, r', []⟩ :=
        Step.run_bind_ok hseek
      rw [RecordReader.answers_cons hcall, ih hmerges]
      rfl
    | next =>
      obtain ⟨r', hnext, hmerges⟩ := next_of_merges h
      have hcall : (RecordReader.perform disk .next).run r
          = ⟨.ok (l.head?.map fun e => p.ofRow e.schema e.row), r', []⟩ := hnext
      rw [RecordReader.answers_cons hcall, ih hmerges]
      rfl

end TableReader

end TableScan
