import Mathlib
import TableScan.Proofs.Table.Cursors
import TableScan.Proofs.Table.Scans

/-!
# What failed calls leave of a table

A call that fails has taken the bytes that it failed on, and the next call goes on behind them. So
what is still to come of a row file are the good frames that are met when everything else is passed
over (`Table.Frame.salvage`), and of a cursor the rows among them (`TableCursor.rowsLeft`). Only a
cursor with a directory in the place of its file stays where it is (`TableCursor.IsBlocked`).

`TableCursor.Advance` and `TableCursor.HeadLoad` list what can come of reading a row and of showing
the head. Main statements: they are all that can come of it (`advance_nextRow`,
`headLoad_loadHead`), and dropping rows below a key makes no more of what is left
(`losesOnly_dropBelow`).
-/

namespace TableScan

namespace Table.Frame

theorem length_behind_lt {bytes : List UInt8} (h : bytes ≠ []) :
    (behind bytes).length < bytes.length := by
  have hspan := four_le_span bytes
  have hpos := List.length_pos_iff.2 h
  rw [behind, List.length_drop]
  omega

/-- The payloads of the good frames that calls meet in some bytes, where each call goes on behind
the bytes that the one before has taken. -/
def salvage : List UInt8 → List Json
  | [] => []
  | b :: bs =>
    match read (front (b :: bs)) with
    | .ok (payload, _) => payload :: salvage (behind (b :: bs))
    | .error _ => salvage (behind (b :: bs))
termination_by bytes => bytes.length
decreasing_by
  · exact length_behind_lt (List.cons_ne_nil b bs)
  · exact length_behind_lt (List.cons_ne_nil b bs)

theorem salvage_of_isFrame {frame rest : List UInt8} {payload : Json} (h : IsFrame frame payload) :
    salvage (frame ++ rest) = payload :: salvage rest := by
  have hne : frame ≠ [] := by
    rintro rfl
    exact absurd h.covers (by decide)
  obtain ⟨b, bs, rfl⟩ := List.exists_cons_of_ne_nil hne
  rw [List.cons_append, salvage, ← List.cons_append, h.front_eq, h.behind_eq,
    read_eq_ok_iff.2 h]

theorem salvage_of_not_leads {bytes : List UInt8} (h : bytes ≠ []) (hnone : ¬ Leads bytes) :
    salvage bytes = salvage (behind bytes) := by
  obtain ⟨b, bs, rfl⟩ := List.exists_cons_of_ne_nil h
  rw [salvage]
  -- a frame that can be read here would lead the bytes
  cases hread : read (front (b :: bs)) with
  | error fault => rfl
  | ok r =>
    obtain ⟨payload, used⟩ := r
    exact absurd (leads_iff.2 ⟨payload, (isFrame_of_read_front hread).2⟩) hnone

end Table.Frame

namespace TableCursor

open Table.Frame (salvage)

variable {disk : Disk}

/-! ## Rows -/

/-- The rows that are still to come of a cursor, where calls that fail are passed over. -/
def rowsLeft (disk : Disk) (s : TableCursor) : List Record :=
  if s.done then []
  else match s.file.number with
    | none => []
    | some number => (salvage (s.file.remaining (disk.bytesOf number))).filterMap fun payload =>
      (Record.ofJson s.table.schema payload).toOption

/-- How many bytes are still to come of a cursor. -/
def bytesLeft (disk : Disk) (s : TableCursor) : Nat :=
  match s.file.number with
  | none => 0
  | some number => (s.file.remaining (disk.bytesOf number)).length

/-- A cursor that cannot read anything and never will. -/
structure IsBlocked (s : TableCursor) : Prop where
  reading : s.done = false
  number : s.file.number = none

theorem rowsLeft_of_done {s : TableCursor} (h : s.done = true) : s.rowsLeft disk = [] := if_pos h

theorem rowsLeft_of_isBlocked {s : TableCursor} (h : s.IsBlocked) : s.rowsLeft disk = [] := by
  unfold rowsLeft
  rw [h.reading, h.number]
  rfl

theorem rowsLeft_of_number {s : TableCursor} {number : Nat} (hdone : s.done = false)
    (hnumber : s.file.number = some number) :
    s.rowsLeft disk = (salvage (s.file.remaining (disk.bytesOf number))).filterMap fun payload =>
      (Record.ofJson s.table.schema payload).toOption := by
  unfold rowsLeft
  rw [hdone, hnumber]
  rfl

theorem bytesLeft_of_number {s : TableCursor} {number : Nat}
    (hnumber : s.file.number = some number) :
    s.bytesLeft disk = (s.file.remaining (disk.bytesOf number)).length := by
  unfold bytesLeft
  rw [hnumber]

/-- What can come of reading a row: the end, the first of the rows that are left, or a failure. A
failure takes bytes and no row, unless the cursor is blocked. -/
inductive Advance (disk : Disk) (s : TableCursor) : Outcome TableCursor (Option Record) → Prop where
  | ended {s' : TableCursor} {log : List Log.Entry} (hopen : ¬ s.IsBlocked)
      (hrows : s.rowsLeft disk = []) (hdone : s'.done = true)
      (hle : s'.bytesLeft disk ≤ s.bytesLeft disk) (hsame : SameView s s') :
    Advance disk s ⟨.ok none, s', log⟩
  | row {s' : TableCursor} {row : Record} {log : List Log.Entry} (hopen : ¬ s.IsBlocked)
      (hopen' : ¬ s'.IsBlocked) (hrows : s.rowsLeft disk = row :: s'.rowsLeft disk)
      (hlt : s'.bytesLeft disk < s.bytesLeft disk) (hsame : SameView s s') :
    Advance disk s ⟨.ok (some row), s', log⟩
  | failed {s' : TableCursor} {cause : LoadError} {log : List Log.Entry} (hopen : ¬ s.IsBlocked)
      (hopen' : ¬ s'.IsBlocked) (hrows : s'.rowsLeft disk = s.rowsLeft disk)
      (hlt : s'.bytesLeft disk < s.bytesLeft disk) (hsame : SameView s s') :
    Advance disk s ⟨.error cause, s', log⟩
  | blocked {cause : LoadError} {log : List Log.Entry} (hblocked : s.IsBlocked) :
    Advance disk s ⟨.error cause, s, log⟩

/-- A call on the row file of a cursor that is not at its end. -/
theorem advance_of_number {s : TableCursor} {number : Nat} (hdone : s.done = false)
    (hnumber : s.file.number = some number) : Advance disk s (nextRow disk s) := by
  -- with a file under it a cursor is not blocked, before and after
  have hopen : ∀ {t : TableCursor}, t.file.number = some number → ¬ t.IsBlocked :=
    fun hn hblocked => Option.some_ne_none number (hn.symm.trans hblocked.number)
  have htaking := RowFile.taking_readFrame (disk.bytesOf number) s.file
  rw [← RowFile.next_eq_readFrame hnumber] at htaking
  have hrows : s.rowsLeft disk = _ := rowsLeft_of_number hdone hnumber
  have hbytes : s.bytesLeft disk = _ := bytesLeft_of_number hnumber
  unfold nextRow
  rw [if_neg (by rw [hdone]; decide)]
  generalize RowFile.next disk s.file = o at htaking
  cases htaking with
  -- the file is used up
  | @ended file hrest hleft hsame =>
    let s' : TableCursor := { s with file := file, done := true }
    have hnumber' : s'.file.number = some number := hsame.2.trans hnumber
    refine .ended (hopen hnumber) ?_ rfl ?_ ⟨rfl, rfl, rfl, rfl⟩
    · rw [hrows, hrest, salvage]
      rfl
    · rw [bytesLeft_of_number hnumber', hbytes, hrest]
      exact Nat.le_of_eq (congrArg List.length hleft)
  | @row file frame rest payload hframe hrest hleft hsame _ =>
    let s' : TableCursor := { s with file := file }
    have hnumber' : s'.file.number = some number := hsame.2.trans hnumber
    have hrows' : s'.rowsLeft disk = (salvage rest).filterMap fun payload =>
        (Record.ofJson s.table.schema payload).toOption := by
      rw [rowsLeft_of_number (show s'.done = false from hdone) hnumber', ← hleft]
    -- a frame takes eight bytes at least
    have hlt : s'.bytesLeft disk < s.bytesLeft disk := by
      have hcovers : 8 ≤ frame.length := hframe.covers
      rw [bytesLeft_of_number hnumber', hbytes, hrest, hleft, List.length_append]
      omega
    rw [hrest, Table.Frame.salvage_of_isFrame hframe, List.filterMap_cons] at hrows
    dsimp only
    unfold rowOf
    -- the frame is good, and may still hold no row of the table
    cases hrow : Record.ofJson s.table.schema payload with
    | ok row =>
      rw [hrow] at hrows
      exact .row (hopen hnumber) (hopen hnumber') (hrows.trans (congrArg _ hrows'.symm)) hlt
        ⟨rfl, rfl, rfl, rfl⟩
    | error cause =>
      rw [hrow] at hrows
      exact .failed (hopen hnumber) (hopen hnumber') (hrows'.trans hrows.symm) hlt
        ⟨rfl, rfl, rfl, rfl⟩
  | @failed file fault hrest hnone hleft hsame =>
    let s' : TableCursor := { s with file := file }
    have hnumber' : s'.file.number = some number := hsame.2.trans hnumber
    refine .failed (hopen hnumber) (hopen hnumber') ?_ ?_ ⟨rfl, rfl, rfl, rfl⟩
    · rw [hrows, Table.Frame.salvage_of_not_leads hrest hnone, ← hleft]
      exact rowsLeft_of_number (show s'.done = false from hdone) hnumber'
    · rw [bytesLeft_of_number hnumber', hbytes, hleft]
      exact Table.Frame.length_behind_lt hrest

/-- Where no good frame is in front, a call fails on the file. -/
theorem exists_nextRow_of_not_leads {s : TableCursor} {number : Nat} (hdone : s.done = false)
    (hnumber : s.file.number = some number) (hrest : s.file.remaining (disk.bytesOf number) ≠ [])
    (hnone : ¬ Table.Frame.Leads (s.file.remaining (disk.bytesOf number))) :
    ∃ fault s', nextRow disk s = ⟨.error (.io fault), s', []⟩ := by
  have htaking := RowFile.taking_readFrame (disk.bytesOf number) s.file
  rw [← RowFile.next_eq_readFrame hnumber] at htaking
  unfold nextRow
  rw [if_neg (by rw [hdone]; decide)]
  generalize RowFile.next disk s.file = o at htaking
  -- the end and a frame are excluded
  cases htaking with
  | ended hnil => exact absurd hnil hrest
  | row hframe hleads => exact absurd ⟨_, _, _, hframe, hleads⟩ hnone
  | failed => exact ⟨_, _, rfl⟩

/-- Reading a row is one of the advances. -/
theorem advance_nextRow (disk : Disk) (s : TableCursor) : Advance disk s (nextRow disk s) := by
  by_cases hdone : s.done = true
  · unfold nextRow
    rw [if_pos hdone]
    refine .ended (fun hblocked => ?_) (rowsLeft_of_done hdone) hdone (Nat.le_refl _)
      ⟨rfl, rfl, rfl, rfl⟩
    cases hdone.symm.trans hblocked.reading
  have hreading : s.done = false := Bool.eq_false_iff.2 hdone
  cases hnumber : s.file.number with
  | some number => exact advance_of_number hreading hnumber
  | none =>
    unfold nextRow RowFile.next
    rw [if_neg hdone, hnumber]
    exact .blocked ⟨hreading, hnumber⟩

/-! ## Heads -/

/-- A merge has still a row to take from a cursor: its head, or a row that is left and has a key. -/
def HasEntry (disk : Disk) (s : TableCursor) : Prop :=
  s.head.isSome = true ∨ ∃ row ∈ s.rowsLeft disk, ∃ key, s.keyOf row = .ok key

/-- A merge waits in vain for the head of a cursor. -/
structure IsStuck (s : TableCursor) : Prop where
  empty : s.head = none
  blocked : s.IsBlocked

/-- Two cursors have as much to give to a merge. -/
structure SameStanding (disk : Disk) (s s' : TableCursor) : Prop where
  entry : s'.HasEntry disk ↔ s.HasEntry disk
  stuck : s'.IsStuck ↔ s.IsStuck

theorem SameStanding.refl (disk : Disk) (s : TableCursor) : SameStanding disk s s :=
  ⟨Iff.rfl, Iff.rfl⟩

/-- What can come of showing the head: it shows if there is one, or the call has failed. -/
inductive HeadLoad (disk : Disk) (s : TableCursor) : Outcome TableCursor Unit → Prop where
  | shown {s' : TableCursor} {log : List Log.Entry} (hsame : SameStanding disk s s')
      (hstuck : ¬ s.IsStuck) (hhead : s.HasEntry disk → s'.head.isSome = true)
      (hle : s'.bytesLeft disk ≤ s.bytesLeft disk) :
    HeadLoad disk s ⟨.ok (), s', log⟩
  | failed {s' : TableCursor} {cause : LoadError} {log : List Log.Entry}
      (hsame : SameStanding disk s s')
      (hlt : ¬ s.IsStuck → s'.bytesLeft disk < s.bytesLeft disk) :
    HeadLoad disk s ⟨.error cause, s', log⟩

theorem keyOf_of_sameView {s s' : TableCursor} (h : SameView s s') : s'.keyOf = s.keyOf := by
  funext row
  unfold keyOf
  rw [h.keys]

/-- Without a head the rows that are left count. -/
theorem hasEntry_iff_of_head_none {s : TableCursor} (h : s.head = none) :
    s.HasEntry disk ↔ ∃ row ∈ s.rowsLeft disk, ∃ key, s.keyOf row = .ok key := by
  unfold HasEntry
  rw [h]
  exact or_iff_right Bool.false_ne_true

theorem not_isStuck_of_head {s : TableCursor} (h : s.head.isSome = true) : ¬ s.IsStuck := by
  intro hstuck
  rw [hstuck.empty] at h
  cases h

/-- Cursors that can read are as good for a merge as their entries. -/
theorem sameStanding_of_open {s s' : TableCursor} (hopen : ¬ s.IsBlocked) (hopen' : ¬ s'.IsBlocked)
    (hentry : s'.HasEntry disk ↔ s.HasEntry disk) : SameStanding disk s s' :=
  ⟨hentry, iff_of_false (fun h => hopen' h.blocked) fun h => hopen h.blocked⟩

/-- Showing the head is one of the ways listed. -/
theorem headLoad_loadHead (disk : Disk) (s : TableCursor) :
    HeadLoad disk s (loadHead disk s) := by
  unfold loadHead
  by_cases hhead : s.head.isSome = true
  · rw [if_pos hhead]
    exact .shown (.refl disk s) (not_isStuck_of_head hhead) (fun _ => hhead) (Nat.le_refl _)
  rw [if_neg hhead]
  have hnone : s.head = none := Option.not_isSome_iff_eq_none.1 hhead
  have hentry : s.HasEntry disk ↔ _ := hasEntry_iff_of_head_none hnone
  have hadvance := advance_nextRow disk s
  generalize nextRow disk s = o at hadvance
  cases hadvance with
  | @ended s' log hopen hrows hdone hle hsame =>
    -- no row was left, before or after, so nothing is lost
    have hopen' : ¬ s'.IsBlocked := fun h => by cases hdone.symm.trans h.reading
    have hempty : ¬ s.HasEntry disk := by
      rw [hentry, hrows]
      exact fun ⟨_, hrow, _⟩ => List.not_mem_nil hrow
    have hempty' : ¬ s'.HasEntry disk := by
      rw [hasEntry_iff_of_head_none (hsame.head.trans hnone), rowsLeft_of_done hdone]
      exact fun ⟨_, hrow, _⟩ => List.not_mem_nil hrow
    exact .shown (sameStanding_of_open hopen hopen' (iff_of_false hempty' hempty))
      (fun hstuck => hopen hstuck.blocked) (fun h => absurd h hempty) hle
  | @row s' row log hopen hopen' hrows hlt hsame =>
    have hentry' : s'.HasEntry disk ↔ _ := hasEntry_iff_of_head_none (hsame.head.trans hnone)
    dsimp only
    cases hkey : s'.keyOf row with
    | ok key =>
      let shown : TableCursor := { s' with head := some (key, row) }
      -- the row that is shown was among those left, with this key
      have hthere : s.HasEntry disk := by
        rw [hentry, hrows]
        exact ⟨row, List.mem_cons_self, key, (congrFun (keyOf_of_sameView hsame) row) ▸ hkey⟩
      have hopen'' : ¬ shown.IsBlocked := fun h => hopen' ⟨h.reading, h.number⟩
      exact .shown (sameStanding_of_open hopen hopen'' (iff_of_true (.inl rfl) hthere))
        (fun hstuck => hopen hstuck.blocked) (fun _ => rfl) (Nat.le_of_lt hlt)
    | error cause =>
      refine .failed (sameStanding_of_open hopen hopen' ?_) fun _ => hlt
      -- the row that is lost had no key, so that it was no entry
      rw [hentry, hentry', hrows, List.exists_mem_cons_iff, ← keyOf_of_sameView hsame, hkey]
      refine (or_iff_right ?_).symm
      rintro ⟨_, hkeyed⟩
      cases hkeyed
  | @failed s' cause log hopen hopen' hrows hlt hsame =>
    refine .failed (sameStanding_of_open hopen hopen' ?_) fun _ => hlt
    rw [hentry, hasEntry_iff_of_head_none (hsame.head.trans hnone), hrows, keyOf_of_sameView hsame]
  | blocked hblocked =>
    exact .failed (.refl disk s) fun hstuck => absurd ⟨hnone, hblocked⟩ hstuck

/-- One cursor has no more to give to a merge than another. -/
structure LosesOnly (disk : Disk) (s s' : TableCursor) : Prop where
  entry : s'.HasEntry disk → s.HasEntry disk
  stuck : s.IsStuck → s'.IsStuck

theorem SameStanding.losesOnly {s s' : TableCursor} (h : SameStanding disk s s') :
    LosesOnly disk s s' := ⟨h.entry.1, h.stuck.2⟩

theorem LosesOnly.trans {s s' s'' : TableCursor} (h : LosesOnly disk s s')
    (h' : LosesOnly disk s' s'') : LosesOnly disk s s'' :=
  ⟨fun he => h.entry (h'.entry he), fun hs => h'.stuck (h.stuck hs)⟩

theorem losesOnly_of_loadHead {s s' : TableCursor} {result : LoadResult Unit}
    {log : List Log.Entry} (h : loadHead disk s = ⟨result, s', log⟩) : LosesOnly disk s s' := by
  have hload := headLoad_loadHead disk s
  rw [h] at hload
  cases hload with
  | shown hsame => exact hsame.losesOnly
  | failed hsame => exact hsame.losesOnly

theorem losesOnly_dropHead {s : TableCursor} (h : s.head.isSome = true) :
    LosesOnly disk s s.dropHead :=
  ⟨fun _ => .inl h, fun hstuck => absurd hstuck (not_isStuck_of_head h)⟩

/-- Dropping the rows below a key makes no more of what is left, also where it fails. -/
theorem losesOnly_dropBelow (disk : Disk) (key : RowKey) (s : TableCursor) :
    LosesOnly disk s (dropBelow disk key s).state := by
  fun_induction dropBelow disk key s with
  | case1 s cause s' log hload => exact losesOnly_of_loadHead hload
  | case2 s s' log hload => exact losesOnly_of_loadHead hload
  | case3 s s' log hload k row hhead hlt r ih =>
    have hshown : s'.head.isSome = true := by
      rw [hhead]
      rfl
    exact ((losesOnly_of_loadHead hload).trans (losesOnly_dropHead hshown)).trans ih
  | case4 s s' log hload => exact losesOnly_of_loadHead hload

end TableCursor

end TableScan
