import TableScan.Proofs.RowKey.Keyable
import TableScan.Proofs.Table.Reopening
import TableScan.Proofs.Table.Writing

/-!
# Rows that are refused

Which rows a writer takes, and what is left of the others. A row is decoded before its key is made,
and a decoded row always has a key, so there are two ways to refuse it: the schema does not decode
its rendering, or its key is below the one of the last row that was taken. The invariant behind the
second is that the last key of a writer is the key of the last row that it stored
(`TableWriter.KeepsKeyOf`).

Main statement: a refused row leaves no trace, neither in the writer nor in the row file, which ends
up as the frames of the decoded rows that were taken (`TableWriter.finish_answered_append`).
-/

namespace TableScan.TableWriter

open Table (Frame.ofRow)

variable {disk disk₁ : Disk} {w : TableWriter} {s : Disk × TableWriter} {dir : String}
  {schema : Schema} {sortColumns : List String} {log : List Log.Entry}

/-- In a table that is sorted by some columns, if it is by any, a row may come behind another one:
both have keys, and its own is not the lower one. -/
def InOrder (schema : Schema) (sortColumns : List String) (last row : Record) : Prop :=
  sortColumns = [] ∨ ∃ order g k k', SortOrder.ofNames sortColumns schema = .ok order
    ∧ KeyLayout.ofOrder order schema = .ok g ∧ g.keyOfRecord last = .ok k
    ∧ g.keyOfRecord row = .ok k' ∧ ¬ k' < k

/-! ## What a writer has stored -/

/-- The last key of a writer is the one of the last of some rows. -/
def KeepsKeyOf (g : KeyLayout) (stored : List Record) (w : TableWriter) : Prop :=
  w.lastKey.map Except.ok = stored.getLast?.map g.keyOfRecord

/-- The writer of a new table has stored some rows. -/
structure HasStored (dir : String) (schema : Schema) (sortColumns : List String)
    (stored : List Record) (w : TableWriter) : Prop where
  dir_eq : w.dir = dir
  schema_eq : w.schema = schema
  rows_eq : w.rows = stored.length
  unsorted : sortColumns = [] → w.keys = none
  sorted : sortColumns ≠ [] → ∃ order g, SortOrder.ofNames sortColumns schema = .ok order
    ∧ KeyLayout.ofOrder order schema = .ok g ∧ w.keys = some g ∧ KeepsKeyOf g stored w

theorem Created.hasStored (h : Created dir schema sortColumns w disk) :
    HasStored dir schema sortColumns [] w := by
  obtain ⟨keys, hw⟩ := h.start
  refine ⟨congrArg TableWriter.dir hw, h.schema_eq, congrArg TableWriter.rows hw, h.unsorted,
    fun hne => ?_⟩
  obtain ⟨order, g, horder, hg, hkeys⟩ := h.sorted hne
  have hlast : w.lastKey = none := congrArg TableWriter.lastKey hw
  refine ⟨order, g, horder, hg, hkeys, ?_⟩
  rw [KeepsKeyOf, hlast]
  rfl

namespace HasStored

variable {stored : List Record} {row own : Record} {key : Option RowKey}

theorem append (h : HasStored dir schema sortColumns stored s.2)
    (haccepted : s.2.accepted row = .ok (own, key)) :
    HasStored dir schema sortColumns (stored ++ [own])
      ((TableWriter.append row).run s).state.2 := by
  obtain ⟨position, held, hput⟩ :=
    put_eq { s.2 with lastKey := key, rows := s.2.rows + 1 } (Frame.ofRow own) s.1
  rw [run_append_of_ok haccepted, hput]
  -- the row counts, and its key is the last one from now on
  refine ⟨h.dir_eq, h.schema_eq, ?_, h.unsorted, fun hne => ?_⟩
  · rw [List.length_append, ← h.rows_eq]
    rfl
  · obtain ⟨order, g, horder, hg, hkeys, -⟩ := h.sorted hne
    obtain ⟨k, hk, rfl, -⟩ := exists_key_of_nextKey hkeys (accepted_eq_ok_iff.1 haccepted).2
    refine ⟨order, g, horder, hg, hkeys, ?_⟩
    rw [KeepsKeyOf, List.getLast?_concat, Option.map_some, Option.map_some, hk]

/-- Rows that are taken come behind those that were taken before. -/
theorem appendEach (h : HasStored dir schema sortColumns stored s.2) (rows : List Record) :
    HasStored dir schema sortColumns (stored ++ storedOf rows s)
      (TableWriter.appendEach rows s).2.2 := by
  induction rows generalizing s stored with
  | nil =>
    rw [storedOf, List.append_nil]
    exact h
  | cons row rows ih =>
    show HasStored _ _ _ _
      (TableWriter.appendEach rows ((TableWriter.append row).run s).state).2.2
    cases haccepted : s.2.accepted row with
    | error e =>
      rw [storedOf_cons_of_error haccepted, run_append_of_error haccepted]
      exact ih h
    | ok r =>
      rw [storedOf_cons_of_ok haccepted, List.append_cons]
      exact ih (h.append haccepted)

/-! ## Which rows are taken -/

/-- A decoded row has a key, so it is in order if it is the first one or its key says so. -/
theorem exists_nextKey_iff (h : HasStored dir schema sortColumns stored w) {j : Json}
    (hown : Record.ofJson schema j = .ok own) :
    (∃ key, w.nextKey own = .ok key)
      ↔ ∀ last ∈ stored.getLast?, InOrder schema sortColumns last own := by
  -- without sort columns nothing is compared
  by_cases hne : sortColumns = []
  · have hkey : w.nextKey own = .ok none := by
      unfold nextKey
      rw [h.unsorted hne]
    exact iff_of_true ⟨none, hkey⟩ fun _ _ => .inl hne
  · obtain ⟨order, g, horder, hg, hkeys, hlast⟩ := h.sorted hne
    obtain ⟨k, hk⟩ := KeyLayout.exists_keyOfRecord hg hown
    constructor
    · rintro ⟨key, hkey⟩ last hmem
      obtain ⟨k', hk', -, hbelow⟩ := exists_key_of_nextKey hkeys hkey
      -- the last key is that of the last row
      rw [KeepsKeyOf, hmem, Option.map_some] at hlast
      obtain ⟨lastKey, hlastKey, hkeyed⟩ := Option.map_eq_some_iff.1 hlast
      exact .inr ⟨order, g, lastKey, k', horder, hg, hkeyed.symm, hk', hbelow lastKey hlastKey⟩
    · intro hinorder
      refine ⟨some k, nextKey_of_not_lt hkeys hk fun lastKey hlastKey => ?_⟩
      rw [KeepsKeyOf, hlastKey, Option.map_some] at hlast
      obtain ⟨last, hmem, hkeyed⟩ := Option.map_eq_some_iff.1 hlast.symm
      rcases hinorder last hmem with hnil | ⟨order', g', l, k', horder', hg', hl, hk', hbelow⟩
      · exact absurd hnil hne
      -- names make one order, an order one layout, and a row one key
      · obtain rfl := Except.ok.inj (horder.symm.trans horder')
        obtain rfl := Except.ok.inj (hg.symm.trans hg')
        obtain rfl := Except.ok.inj (hkeyed.symm.trans hl)
        obtain rfl := Except.ok.inj (hk.symm.trans hk')
        exact hbelow

/-- The one failure behind the decoding is that a row is out of order. -/
theorem nextKey_eq_error (h : HasStored dir schema sortColumns stored w) {j : Json}
    (hown : Record.ofJson schema j = .ok own) {e : LoadError} (he : w.nextKey own = .error e) :
    e = .configuration (.rowOutOfOrder stored.length dir) := by
  by_cases hne : sortColumns = []
  · unfold nextKey at he
    rw [h.unsorted hne] at he
    cases he
  · obtain ⟨order, g, horder, hg, hkeys, -⟩ := h.sorted hne
    obtain ⟨k, hk⟩ := KeyLayout.exists_keyOfRecord hg hown
    unfold nextKey at he
    rw [hkeys] at he
    rcases Results.bind_eq_error_iff.1 he with hkey | ⟨k', -, hlast⟩
    · cases hk.symm.trans hkey
    · split at hlast
      · rw [← Except.error.inj hlast, h.rows_eq, h.dir_eq]
      · cases hlast

/-- A row is taken just where it decodes and is in order. -/
theorem append_eq_ok_iff (h : HasStored dir schema sortColumns stored s.2) :
    ((TableWriter.append row).run s).result = .ok () ↔
      ∃ own, Record.ofJson schema row.toJson = .ok own
        ∧ ∀ last ∈ stored.getLast?, InOrder schema sortColumns last own := by
  have hiff : ((TableWriter.append row).run s).result = .ok ()
      ↔ ∃ own, Record.ofJson schema row.toJson = .ok own ∧ ∃ key, s.2.nextKey own = .ok key := by
    cases haccepted : s.2.accepted row with
    | ok r =>
      rw [run_append_of_ok haccepted]
      obtain ⟨hown, hkey⟩ := accepted_eq_ok_iff.1 haccepted
      exact iff_of_true rfl ⟨r.1, h.schema_eq ▸ hown, r.2, hkey⟩
    | error e =>
      rw [run_append_of_error haccepted]
      refine iff_of_false nofun ?_
      rintro ⟨own, hown, key, hkey⟩
      rw [← h.schema_eq] at hown
      cases haccepted.symm.trans (accepted_eq_ok_iff.2 ⟨hown, hkey⟩)
  rw [hiff]
  exact exists_congr fun own => and_congr_right fun hown => h.exists_nextKey_iff hown

/-- A row is refused for the decoding or for its place. -/
theorem append_eq_error (h : HasStored dir schema sortColumns stored s.2) {e : LoadError}
    (he : ((TableWriter.append row).run s).result = .error e) :
    Record.ofJson schema row.toJson = .error e
      ∨ e = .configuration (.rowOutOfOrder stored.length dir) := by
  cases haccepted : s.2.accepted row with
  | ok r =>
    rw [run_append_of_ok haccepted] at he
    cases he
  | error fault =>
    rw [run_append_of_error haccepted] at he
    obtain rfl := Except.error.inj he
    rw [← h.schema_eq]
    -- decoding comes first, and then the key
    rcases Results.bind_eq_error_iff.1 haccepted with hdecode | ⟨own, hown, hrest⟩
    · exact .inl hdecode
    · rcases Results.bind_eq_error_iff.1 hrest with hkey | ⟨key, -, hlast⟩
      · exact .inr (h.nextKey_eq_error (h.schema_eq ▸ hown) hkey)
      · cases hlast

/-- What is stored are the rows that are taken, decoded. -/
theorem mapM_answered (h : HasStored dir schema sortColumns stored s.2) (rows : List Record) :
    (Step.answered TableWriter.append rows s).mapM (fun row => Record.ofJson schema row.toJson)
      = .ok (storedOf rows s) := by
  induction rows generalizing s stored with
  | nil => rfl
  | cons row rows ih =>
    cases haccepted : s.2.accepted row with
    | error e =>
      have hrun := run_append_of_error haccepted
      -- a refused row leaves the writer as it was, and is not among the answered
      have hstate : ((TableWriter.append row).run s).state = s := congrArg Outcome.state hrun
      rw [Step.answered_cons_of_error (congrArg Outcome.result hrun), hstate,
        storedOf_cons_of_error haccepted]
      exact ih h
    | ok r =>
      have hown := (accepted_eq_ok_iff.1 haccepted).1
      rw [h.schema_eq] at hown
      rw [Step.answered_cons_of_ok (congrArg Outcome.result (run_append_of_ok haccepted)),
        storedOf_cons_of_ok haccepted, Results.mapM_eq_ok_iff]
      exact .cons hown (Results.mapM_eq_ok_iff.1 (ih (h.append haccepted)))

end HasStored

/-! ## Refused rows -/

/-- A row that is refused leaves the disk and the writer as they were. -/
theorem failsStill_append (row : Record) (s : Disk × TableWriter) :
    Step.FailsStill (append row) s := by
  intro e he
  cases haccepted : s.2.accepted row with
  | error fault => rw [run_append_of_error haccepted]
  | ok r =>
    rw [run_append_of_ok haccepted] at he
    cases he

/-- Any rows are appended to a new table. A row is taken just when the schema decodes its rendering
and, in a sorted table, its key is not below the one of the last row that was taken; one that is
refused changes nothing, and the error is the one of the decoding or says that the row is out of
order. The writer can then be finished, which tells the number of the rows that were taken, and the
row file is their frames in their order. All of this is the same as when the others had never been
appended. -/
theorem finish_answered_append (hsound : disk.IsSound)
    (hcreate : (create dir schema sortColumns).run disk = ⟨.ok w, disk₁, log⟩)
    (rows : List Record) :
    (∀ before row behind, rows = before ++ row :: behind →
        ∀ s, (appendEach before (disk₁, w)).2 = s →
          ∃ stored, (Step.answered append before (disk₁, w)).mapM
              (fun row => Record.ofJson schema row.toJson) = .ok stored
            ∧ (((append row).run s).result = .ok () ↔
                ∃ own, Record.ofJson schema row.toJson = .ok own
                  ∧ ∀ last ∈ stored.getLast?, InOrder schema sortColumns last own)
            ∧ ∀ e, ((append row).run s).result = .error e →
                ((append row).run s).state = s
                  ∧ (Record.ofJson schema row.toJson = .error e
                    ∨ e = .configuration (.rowOutOfOrder stored.length dir)))
      ∧ (∃ stored disk₂, (Step.answered append rows (disk₁, w)).mapM
            (fun row => Record.ofJson schema row.toJson) = .ok stored
          ∧ (finish (appendEach rows (disk₁, w)).2.2).run (appendEach rows (disk₁, w)).2.1
              = ⟨.ok stored.length, disk₂, []⟩
          ∧ disk₂.root.find (Table.rowFilePath dir) = .ok (.file w.file)
          ∧ disk₂.bytesOf w.file = stored.flatMap Frame.ofRow)
      ∧ appendEach (Step.answered append rows (disk₁, w)) (disk₁, w)
          = ((appendEach rows (disk₁, w)).1.filter Except.isOk,
            (appendEach rows (disk₁, w)).2) := by
  have hcreated := create_spec hsound hcreate
  have hnew : HasStored dir schema sortColumns [] (disk₁, w).2 := hcreated.hasStored
  refine ⟨?_, ?_, ?_⟩
  -- what holds in front of a row depends on those before it alone
  · rintro before row behind - s rfl
    have hstored := hnew.appendEach before
    rw [List.nil_append] at hstored
    exact ⟨_, hnew.mapM_answered before, hstored.append_eq_ok_iff, fun e he =>
      ⟨failsStill_append row _ e he, hstored.append_eq_error he⟩⟩
  · obtain ⟨disk₂, hfinish, hbytes, hsame⟩ := hcreated.run_finish rows
    refine ⟨_, disk₂, hnew.mapM_answered rows, hfinish, ?_, hbytes⟩
    rw [hsame.root, hcreated.rowFile]
  · exact Step.runEach_answered (fun row _ s => failsStill_append row s) (disk₁, w)

/-- Of three rows of a table that is sorted by its numbers the second one has no number, and the
third one a smaller number than the first one: the table has the first one alone. -/
theorem finish_answered_append_numbers :
    ∃ w disk₁ disk₂, (create "t" numbers ["id"]).run Disk.empty = ⟨.ok w, disk₁, []⟩
      ∧ (finish (appendEach [[.int 2], [.string "x"], [.int 1]] (disk₁, w)).2.2).run
          (appendEach [[.int 2], [.string "x"], [.int 1]] (disk₁, w)).2.1 = ⟨.ok 1, disk₂, []⟩
      ∧ disk₂.bytesOf w.file = Frame.ofRow [.int 2] := by
  let w : TableWriter := ⟨"t", numbers, some ⟨[⟨"id", .int, 0⟩]⟩, none, 2, 0, [], 0⟩
  obtain ⟨hcalls, ⟨stored, disk₂, hstored, hfinish, -, hbytes⟩, -⟩ := finish_answered_append
    Disk.isSound_empty run_create_numbers [[.int 2], [.string "x"], [.int 1]]
  have hfirst : ((append [.int 2]).run (numbersDisk, w)).result = .ok () := rfl
  -- what the first row leaves, and what the second one leaves of it
  let s₁ := ((append [.int 2]).run (numbersDisk, w)).state
  let s₂ := ((append [.string "x"]).run s₁).state
  obtain ⟨e₁, hsecond⟩ : ∃ e, ((append [.string "x"]).run s₁).result = .error e := by
    obtain ⟨_, -, hiff, -⟩ := hcalls [[.int 2]] [.string "x"] [[.int 1]] rfl s₁ rfl
    cases hresult : ((append [.string "x"]).run s₁).result with
    | error e => exact ⟨e, rfl⟩
    | ok _ =>
      obtain ⟨own, hown, -⟩ := hiff.1 hresult
      cases hown
  obtain ⟨e₂, hthird⟩ : ∃ e, ((append [.int 1]).run s₂).result = .error e := by
    obtain ⟨before, hbefore, hiff, -⟩ := hcalls [[.int 2], [.string "x"]] [.int 1] [] rfl s₂ rfl
    rw [Step.answered_cons_of_ok hfirst, Step.answered_cons_of_error hsecond] at hbefore
    obtain rfl : [[.int 2]] = before := Except.ok.inj hbefore
    cases hresult : ((append [.int 1]).run s₂).result with
    | error e => exact ⟨e, rfl⟩
    | ok _ =>
      obtain ⟨own, hown, hinorder⟩ := hiff.1 hresult
      obtain rfl : [.int 1] = own := Except.ok.inj hown
      rcases hinorder [.int 2] rfl with hnil | ⟨order, g, k, k', horder, hg, hk, hk', hbelow⟩
      · cases hnil
      · obtain rfl : ⟨numbers⟩ = order := Except.ok.inj horder
        obtain rfl : ⟨[⟨"id", .int, 0⟩]⟩ = g := Except.ok.inj hg
        obtain rfl : ⟨[1, 128, 0, 0, 2]⟩ = k := Except.ok.inj hk
        obtain rfl : ⟨[1, 128, 0, 0, 1]⟩ = k' := Except.ok.inj hk'
        exact absurd (by decide) hbelow
  rw [Step.answered_cons_of_ok hfirst, Step.answered_cons_of_error hsecond,
    Step.answered_cons_of_error hthird] at hstored
  obtain rfl : [[.int 2]] = stored := Except.ok.inj hstored
  exact ⟨w, numbersDisk, disk₂, run_create_numbers, hfinish, hbytes.trans (List.append_nil _)⟩

end TableScan.TableWriter
