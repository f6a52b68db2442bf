import Mathlib
import TableScan.Proofs.Table.Scans

/-!
# Where a row file stands and what its offset tells

A call takes bytes from the file whether it succeeds or not, but only a call that gives a row moves
the offset. So the offset is behind the place where the next call reads on (`RowFile.position`) by
the bytes that failed calls have taken (`RowFile.lost`), and an error names the offset, not the
place.

`RowFile.Stands` is the invariant of the two parts of a file that is being read, the bytes fetched
ahead and those still in the file: together they are the bytes from the position on. Every call
keeps it (`stands_readFrame`), since all that a call does to the file is taking and moving the
offset (`readFrame_induction`).

Main statement: behind any number of calls, the offset is where the next call reads on, and its
error names the place where it has read, exactly if no earlier call has failed (`offset_behind`).
-/

namespace TableScan

/-! ## Faults that name an offset -/

/-- The offset that a fault of a row file names. -/
def IoFault.offset? : IoFault → Option Nat
  | .headerUnreadable _ offset _ => some offset
  | .frameLength _ _ offset => some offset
  | .frameUnreadable _ offset _ => some offset
  | .frame _ _ offset => some offset
  | _ => none

/-- An error tells an offset: its message, or else its details, ends with it. -/
def LoadError.TellsOffset (e : LoadError) (offset : Nat) : Prop :=
  ∃ front, e.message = front ++ (" at offset " ++ toString offset)
    ∨ e.details = some (front ++ (" at offset " ++ toString offset))

theorem IoFault.tellsOffset {fault : IoFault} {offset : Nat} (h : fault.offset? = some offset) :
    (LoadError.io fault).TellsOffset offset := by
  cases fault with
  | headerUnreadable path named cause =>
    obtain rfl : named = offset := Option.some.inj h
    refine ⟨"Failed to read frame header", .inl ?_⟩
    rw [← String.append_assoc]
    rfl
  | frameUnreadable path named cause =>
    obtain rfl : named = offset := Option.some.inj h
    refine ⟨"Failed to read frame", .inl ?_⟩
    rw [← String.append_assoc]
    rfl
  | frameLength declared path named =>
    obtain rfl : named = offset := Option.some.inj h
    refine ⟨path, .inr ?_⟩
    rw [← String.append_assoc]
    rfl
  | frame fault path named =>
    obtain rfl : named = offset := Option.some.inj h
    refine ⟨path, .inr ?_⟩
    rw [← String.append_assoc]
    rfl
  | _ => cases h

namespace RowFile

open Table.Frame (front)

/-! ## The position -/

/-- The place in its file where a reader goes on: behind what was fetched and handed out. -/
def position (file : RowFile) : Nat := file.fetched - file.ahead.length

/-- A reader of a file that holds `bytes` has fetched no more than there is, and has the bytes from
its position on to come. -/
structure Stands (bytes : List UInt8) (file : RowFile) : Prop where
  fetched_le : file.fetched ≤ bytes.length
  ahead_le : file.ahead.length ≤ file.fetched
  remaining_eq : file.remaining bytes = bytes.drop file.position

variable {bytes : List UInt8} {file : RowFile}

/-- Taking moves the position by what is asked for, at most to the end of the file. -/
theorem stands_take (count : Nat) (h : file.Stands bytes) :
    (file.take count bytes).2.Stands bytes := by
  obtain ⟨hfetched, hahead, hremaining⟩ := h
  have hposition : file.position = file.fetched - file.ahead.length := rfl
  have hleft := remaining_take count bytes file
  rw [hremaining, List.drop_drop] at hleft
  -- both kinds of taking end where `count` bytes more were handed out, or at the end of the file
  suffices hplace : (file.take count bytes).2.fetched ≤ bytes.length
      ∧ (file.take count bytes).2.ahead.length ≤ (file.take count bytes).2.fetched
      ∧ (file.take count bytes).2.position = min (file.position + count) bytes.length by
    obtain ⟨hfetched', hahead', hposition'⟩ := hplace
    refine ⟨hfetched', hahead', ?_⟩
    rw [hleft, hposition']
    rcases Nat.le_total (file.position + count) bytes.length with hle | hle
    · rw [Nat.min_eq_left hle]
    · rw [Nat.min_eq_right hle, List.drop_length, List.drop_of_length_le hle]
  unfold take position
  simp only
  split
  -- enough was fetched ahead: nothing is read from the file
  · next henough =>
    simp only [List.length_drop]
    omega
  -- a block is read, of what is missing at least
  · next hmissing =>
    have hwidth := Nat.le_max_left (count - file.ahead.length) blockSize
    generalize max (count - file.ahead.length) blockSize = width at hwidth ⊢
    simp only [List.length_take, List.length_drop]
    omega

/-- What taking keeps and does not depend on the offset is kept by reading a frame. -/
theorem readFrame_induction {P : RowFile → Prop}
    (htake : ∀ (file : RowFile) count, P file → P (file.take count bytes).2)
    (hoffset : ∀ (file : RowFile) offset, P file → P { file with offset := offset })
    (h : P file) : P (file.readFrame bytes).state := by
  have hheader := htake file 4 h
  unfold readFrame
  generalize file.take 4 bytes = r at hheader
  obtain ⟨header, opened⟩ := r
  -- up to two takings, and the offset moves at the end if the frame is good
  cases header with
  | nil => exact hheader
  | cons b bs =>
    have hbody := htake opened (Table.Frame.declaredLength (b :: bs) - 4) hheader
    dsimp only
    generalize opened.take (Table.Frame.declaredLength (b :: bs) - 4) bytes = r at hbody
    obtain ⟨body, closed⟩ := r
    split
    · exact hheader
    split
    · exact hheader
    dsimp only
    split
    · exact hbody
    cases Table.Frame.read (b :: bs ++ body) with
    | error fault => exact hbody
    | ok r => exact hoffset closed _ hbody

theorem stands_readFrame (h : file.Stands bytes) : (file.readFrame bytes).state.Stands bytes :=
  readFrame_induction (fun _ count => stands_take count)
    (fun _ _ hstands => ⟨hstands.fetched_le, hstands.ahead_le, hstands.remaining_eq⟩) h

theorem Stands.position_le (h : file.Stands bytes) : file.position ≤ bytes.length :=
  Nat.le_trans (Nat.sub_le _ _) h.fetched_le

/-- What is to come tells the position. -/
theorem Stands.position_add (h : file.Stands bytes) :
    file.position + (file.remaining bytes).length = bytes.length := by
  rw [h.remaining_eq, List.length_drop]
  exact Nat.add_sub_cancel' h.position_le

/-- A call that gives no row leaves the offset, and if it fails, its error names the offset. -/
theorem readFrame_row_or_stays (bytes : List UInt8) (file : RowFile) :
    (∃ payload, (file.readFrame bytes).result = .ok (some payload))
      ∨ ((file.readFrame bytes).state.offset = file.offset
        ∧ ∀ e, (file.readFrame bytes).result = .error e →
            ∃ fault, e = .io fault ∧ fault.offset? = some file.offset) := by
  have hheader := offset_take 4 bytes file
  unfold readFrame
  generalize file.take 4 bytes = r at hheader
  obtain ⟨header, opened⟩ := r
  dsimp only at hheader
  cases header with
  | nil => exact .inr ⟨hheader, fun e he => by cases he⟩
  | cons b bs =>
    have hbody := offset_take (Table.Frame.declaredLength (b :: bs) - 4) bytes opened
    dsimp only
    generalize opened.take (Table.Frame.declaredLength (b :: bs) - 4) bytes = r at hbody
    obtain ⟨body, closed⟩ := r
    have hclosed : closed.offset = file.offset := hbody.trans hheader
    -- every failure is reported with the offset, which is still the old one
    have hfailed : ∀ (fault : IoFault) (left : RowFile), left.offset = file.offset →
        fault.offset? = some left.offset →
        (failed fault left).state.offset = file.offset
          ∧ ∀ e, (failed fault left).result = .error e →
              ∃ fault, e = .io fault ∧ fault.offset? = some file.offset := by
      intro fault left hleft hfault
      refine ⟨hleft, fun e he => ⟨fault, ?_, hleft ▸ hfault⟩⟩
      cases he
      rfl
    split
    · exact .inr (hfailed _ _ hheader rfl)
    split
    · exact .inr (hfailed _ _ hheader rfl)
    dsimp only
    split
    · exact .inr (hfailed _ _ hclosed rfl)
    cases Table.Frame.read (b :: bs ++ body) with
    | error fault => exact .inr (hfailed _ _ hclosed rfl)
    | ok r => exact .inl ⟨r.1, rfl⟩

/-! ## Calls one after another -/

variable {disk : Disk} {number : Nat}

/-- The next call fails. -/
def Fails (disk : Disk) (file : RowFile) : Prop := ∃ e, ((next disk).run file).result = .error e

/-- An open row file behind some calls, the failed ones included. -/
def behind (disk : Disk) (file : RowFile) : Nat → RowFile
  | 0 => file
  | n + 1 => ((next disk).run (file.behind disk n)).state

/-- How many bytes the next call takes and gives no row for, since it fails. -/
def lostNext (disk : Disk) (number : Nat) (file : RowFile) : Nat :=
  match ((next disk).run file).result with
  | .ok _ => 0
  | .error _ => (front (file.remaining (disk.bytesOf number))).length

/-- How many bytes some calls have taken that failed. -/
def lost (disk : Disk) (number : Nat) (file : RowFile) : Nat → Nat
  | 0 => 0
  | n + 1 => lost disk number file n + lostNext disk number (file.behind disk n)

/-- What one call does to the position and to the offset: both move by what a row takes, the
position alone by what a failure takes, which is something. -/
theorem moves_next (hnumber : file.number = some number)
    (h : file.Stands (disk.bytesOf number)) :
    ((next disk).run file).state.number = some number
      ∧ ((next disk).run file).state.Stands (disk.bytesOf number)
      ∧ ((next disk).run file).state.position + file.offset
        = file.position + ((next disk).run file).state.offset + lostNext disk number file
      ∧ (lostNext disk number file = 0 ↔ ¬ Fails disk file) := by
  have hread : (next disk).run file = file.readFrame (disk.bytesOf number) :=
    next_eq_readFrame hnumber
  have hstands := stands_readFrame h
  have hstays := readFrame_row_or_stays (disk.bytesOf number) file
  have htaking := taking_readFrame (disk.bytesOf number) file
  have hcome := h.position_add
  unfold lostNext Fails
  rw [hread]
  generalize file.readFrame (disk.bytesOf number) = o at hstands hstays htaking
  have hcome' := hstands.position_add
  cases htaking with
  -- nothing is taken
  | ended hrest hleft hsame =>
    obtain ⟨payload, hrow⟩ | ⟨hoffset, -⟩ := hstays
    · cases hrow
    refine ⟨hsame.2.trans hnumber, hstands, ?_, by simp⟩
    dsimp only at hcome' hoffset ⊢
    rw [hrest] at hcome
    rw [hleft] at hcome'
    omega
  -- position and offset move by the length of the frame
  | row hframe hrest hleft hsame hoffset =>
    refine ⟨hsame.2.trans hnumber, hstands, ?_, by simp⟩
    dsimp only at hcome' hoffset ⊢
    rw [hrest, List.length_append] at hcome
    rw [hleft] at hcome'
    omega
  | failed hrest hnone hleft hsame =>
    obtain ⟨payload, hrow⟩ | ⟨hoffset, -⟩ := hstays
    · cases hrow
    have hwhole := congrArg List.length
      (Table.Frame.front_append_behind (file.remaining (disk.bytesOf number)))
    have hspan := Table.Frame.four_le_span (file.remaining (disk.bytesOf number))
    have hpos := List.length_pos_iff.2 hrest
    -- a failure takes something, so that it can be told from a success
    have hfront : 0 < (front (file.remaining (disk.bytesOf number))).length := by
      rw [front, List.length_take]
      omega
    rw [List.length_append] at hwhole
    refine ⟨hsame.2.trans hnumber, hstands, ?_, ?_⟩
    · dsimp only at hcome' hoffset ⊢
      rw [hleft] at hcome'
      omega
    · simp only [Except.error.injEq, exists_eq', not_true_eq_false, iff_false]
      omega

/-- A call that fails names the offset. -/
theorem exists_fault_of_next (hnumber : file.number = some number) {e : LoadError}
    (he : ((next disk).run file).result = .error e) :
    ∃ fault, e = .io fault ∧ fault.offset? = some file.offset := by
  rw [show (next disk).run file = _ from next_eq_readFrame hnumber] at he
  rcases readFrame_row_or_stays (disk.bytesOf number) file with ⟨payload, hrow⟩ | ⟨-, hnames⟩
  · cases hrow.symm.trans he
  · exact hnames e he

/-- Behind some calls, a file that was just opened has lost what the failed ones among them took. -/
theorem moves_behind (disk : Disk) (path : String) (number n : Nat) :
    let opened : RowFile := ⟨path, some number, 0, [], 0⟩
    let file := opened.behind disk n
    file.number = some number ∧ file.Stands (disk.bytesOf number)
      ∧ file.position = file.offset + lost disk number opened n
      ∧ (lost disk number opened n = 0 ↔ ∀ m < n, ¬ Fails disk (opened.behind disk m)) := by
  intro opened file
  -- the induction adds what each call has lost
  induction n with
  | zero => exact ⟨rfl, ⟨Nat.zero_le _, Nat.zero_le _, rfl⟩, rfl, by simp [lost]⟩
  | succ n ih =>
    obtain ⟨hnumber, hstands, hlost, hnone⟩ := ih
    obtain ⟨hnumber', hstands', hmoves, hfails⟩ := moves_next hnumber hstands
    refine ⟨hnumber', hstands', ?_, ?_⟩
    · show ((next disk).run (opened.behind disk n)).state.position
        = ((next disk).run (opened.behind disk n)).state.offset + lost disk number opened (n + 1)
      rw [lost]
      omega
    · rw [lost, Nat.add_eq_zero_iff, hnone, hfails, Nat.forall_lt_succ_right]

/-- An open file tells where it stands: its offset is where the next call reads on, and if this call
fails, its error names that place. -/
structure TellsPosition (disk : Disk) (file : RowFile) : Prop where
  offset : file.offset = file.position
  errors : ∀ e, ((next disk).run file).result = .error e →
    ∃ fault, e = .io fault ∧ fault.offset? = some file.position

/-- Whatever a row file holds: behind any number of calls, the bytes from the position on are still
to come, the offset is behind the position by what failed calls have taken, and an error names the
offset. So the file tells where it stands as long as no call has failed, and no longer. -/
theorem offset_behind {path : String} (hfile : disk.root.find path = .ok (.file number)) :
    ∃ opened, openAt disk path = .ok opened ∧ ∀ n,
      (opened.behind disk n).position ≤ (disk.bytesOf number).length
        ∧ (opened.behind disk n).remaining (disk.bytesOf number)
          = (disk.bytesOf number).drop (opened.behind disk n).position
        ∧ (opened.behind disk n).position
          = (opened.behind disk n).offset + lost disk number opened n
        ∧ (∀ e, ((next disk).run (opened.behind disk n)).result = .error e →
            e.TellsOffset (opened.behind disk n).offset
              ∧ ∃ fault, e = .io fault ∧ fault.offset? = some (opened.behind disk n).offset)
        ∧ ((opened.behind disk n).TellsPosition disk
          ↔ ∀ m < n, ¬ Fails disk (opened.behind disk m)) := by
  let opened : RowFile := ⟨path, some number, 0, [], 0⟩
  have hopen : openAt disk path = .ok opened := by
    unfold openAt
    rw [hfile]
  refine ⟨opened, hopen, fun n => ?_⟩
  obtain ⟨hnumber, hstands, hlost, hnone⟩ := moves_behind disk path number n
  refine ⟨hstands.position_le, hstands.remaining_eq, hlost, fun e he => ?_, ?_⟩
  · obtain ⟨fault, rfl, hfault⟩ := exists_fault_of_next hnumber he
    exact ⟨IoFault.tellsOffset hfault, fault, rfl, hfault⟩
  rw [← hnone]
  constructor
  · intro htells
    have hsame : (opened.behind disk n).offset = (opened.behind disk n).position := htells.offset
    exact Nat.add_left_cancel (hlost.symm.trans hsame.symm)
  · intro hzero
    have hsame : (opened.behind disk n).position = (opened.behind disk n).offset := by
      rw [hlost, hzero, Nat.add_zero]
    exact ⟨hsame.symm, fun e he => hsame ▸ exists_fault_of_next hnumber he⟩

/-- Eight zeros, which are no length of a frame, in front of the frame of the payload `[1]`. -/
def strayZeros : Disk where
  root := .dir [("f", .file 0)]
  contents := [List.replicate 8 0
    ++ [11, 0, 0, 0, 0x5b, 0x31, 0x5d, 0x2e, 0x60, 0x05, 0x2c]]

theorem offset_behind_strayZeros :
    strayZeros.root.find "f" = .ok (.file 0)
      ∧ ∃ opened, openAt strayZeros "f" = .ok opened
        ∧ opened.TellsPosition strayZeros
        ∧ (opened.behind strayZeros 2).position = (opened.behind strayZeros 2).offset + 8 := by
  obtain ⟨opened, hopen, hbehind⟩ :=
    offset_behind (show strayZeros.root.find "f" = .ok (.file 0) from rfl)
  refine ⟨rfl, opened, hopen, ?_, ?_⟩
  · obtain ⟨-, -, -, -, htells⟩ := hbehind 0
    exact htells.2 fun m hm => absurd hm (Nat.not_lt_zero m)
  · obtain ⟨-, -, hlost, -⟩ := hbehind 2
    obtain rfl := Except.ok.inj hopen
    exact hlost

/-- Behind one failed call the offset is no longer where the next call reads on: that call reads the
length at four and fails as well, with an error that names zero. -/
theorem not_tellsPosition_strayZeros :
    strayZeros.root.find "f" = .ok (.file 0)
      ∧ ∃ opened, openAt strayZeros "f" = .ok opened
        ∧ (opened.behind strayZeros 1).offset = 0
        ∧ (opened.behind strayZeros 1).position = 4
        ∧ ((next strayZeros).run (opened.behind strayZeros 1)).result
          = .error (.io (.frameLength 0 "f" 0))
        ∧ ¬ (opened.behind strayZeros 1).TellsPosition strayZeros := by
  refine ⟨rfl, _, rfl, rfl, rfl, rfl, fun htells => ?_⟩
  have hsame : 0 = 4 := htells.offset
  cases hsame

end RowFile

end TableScan
