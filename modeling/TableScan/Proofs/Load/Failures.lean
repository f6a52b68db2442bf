import Mathlib
import TableScan.Proofs.Load.LifeCycle
import TableScan.Proofs.Reader.Failures

/-!
# Partitions after failures

A call that fails leaves the state of a partition as it was, so that the host may go on with the
partition as if nothing had happened, and the reader goes on with what is left to it.

Main statement: after a seek or a call for a record that has failed on the files, no later call
hands out a record exactly where the reader does not give any more (`silent_after_failure_iff`).
-/

namespace TableScan.Partition

open Step (Keeps)

section

variable {ρ : Type}

/-! ## What holds of the reader -/

/-- The reader that is held, if one is, has a property. -/
def ReaderHolds (Holds : ρ → Prop) (it : Partition ρ) : Prop :=
  ∀ reader, it.reader = some reader → Holds reader

theorem state_run_allowIn (operation : String) (allowed : List PartitionState)
    (it : Partition ρ) : ((allowIn operation allowed).run it).state = it := by
  unfold allowIn
  rw [Step.run_bind_get]
  split <;> rfl

/-- The parts of a seek are those that are held. -/
theorem run_seekParts (it : Partition ρ) :
    (seekParts.run it).state = it
      ∧ ∀ parts, (seekParts.run it).result = .ok parts → it.reader = some parts.2 := by
  unfold seekParts
  rw [Step.run_bind_get]
  cases it.sortOrder with
  | none => exact ⟨rfl, fun parts hparts => by cases hparts⟩
  | some order =>
    cases hreader : it.reader with
    | none => exact ⟨rfl, fun parts hparts => by cases hparts⟩
    | some reader =>
      refine ⟨rfl, fun parts hparts => ?_⟩
      cases hparts
      rfl

theorem run_onReader {α : Type} {reader reader' : ρ} {step : Step ρ α} {result : LoadResult α}
    {log : List Log.Entry} (h : step.run reader = ⟨result, reader', log⟩) (it : Partition ρ) :
    (onReader reader step).run it = ⟨result, { it with reader := some reader' }, log⟩ := by
  have hstep : step reader = ⟨result, reader', log⟩ := h
  unfold onReader Step.run
  rw [hstep]

variable [RecordReader ρ] {disk : Disk} {it : Partition ρ} {Holds : ρ → Prop}

/-- A seek leaves the reader as its own seek does. -/
theorem readerHolds_seekTo {reader : ρ} {key : RowKey}
    (h : Holds ((RecordReader.seekTo disk key).run reader).state) (it : Partition ρ) :
    ReaderHolds Holds ((seekTo disk reader key).run it).state := by
  unfold seekTo
  have hreader : ReaderHolds Holds
      ((onReader reader (RecordReader.seekTo disk key)).run it).state := by
    intro held hheld
    obtain rfl := Option.some.inj hheld
    exact h
  exact Keeps.bind_of_state hreader fun _ => Keeps.bind_get fun _ hmid => hmid

/-- A property that seeks of a reader keep is kept by the seeks of a partition. -/
theorem readerHolds_seekRecord
    (hseek : ∀ reader key, Holds reader → Holds ((RecordReader.seekTo disk key).run reader).state)
    (h : it.ReaderHolds Holds) (target : Record) :
    ReaderHolds Holds ((seekRecord disk target).run it).state := by
  unfold seekRecord
  -- nothing is touched before the reader is asked to seek
  refine Keeps.bind_still (state_run_allowIn _ _ it) h fun _ _ => ?_
  obtain ⟨hstill, hheld⟩ := run_seekParts it
  refine Keeps.bind_still hstill h fun parts hparts => ?_
  refine Keeps.bind_still rfl h fun keys _ => Keeps.bind_still rfl h fun key _ => ?_
  exact readerHolds_seekTo (hseek _ key (h _ (hheld parts hparts))) it

theorem readerHolds_seekValues
    (hseek : ∀ reader key, Holds reader → Holds ((RecordReader.seekTo disk key).run reader).state)
    (h : it.ReaderHolds Holds) (values : List Value) :
    ReaderHolds Holds ((seekValues disk values).run it).state := by
  unfold seekValues
  refine Keeps.bind_still (state_run_allowIn _ _ it) h fun _ _ => ?_
  obtain ⟨hstill, hheld⟩ := run_seekParts it
  refine Keeps.bind_still hstill h fun parts hparts => ?_
  rw [Step.run_bind_get]
  cases it.tupleKeys with
  | none => exact h
  | some keys =>
    refine Keeps.bind_still rfl h fun key _ => ?_
    exact readerHolds_seekTo (hseek _ key (h _ (hheld parts hparts))) it

/-! ## Taking records -/

/-- A partition that reads asks its reader. -/
theorem run_next_of_reader {reader : ρ} (hstate : it.state ∈ [.initialized, .seeked, .iterating])
    (hreader : it.reader = some reader) :
    (next disk).run it = (advance disk reader).run it := by
  have hallow : (allowIn "next" [.initialized, .seeked, .iterating]).run it = ⟨.ok (), it, []⟩ := by
    unfold allowIn
    rw [Step.run_bind_get, if_pos (List.contains_iff_mem.2 hstate)]
    rfl
  -- a partition that reads has not told the end yet
  have hnot : it.state ≠ .exhausted := by
    intro h
    rw [h] at hstate
    revert hstate
    decide
  unfold next
  rw [Step.run_bind_get, if_neg hnot, Step.run_bind_ok hallow, hreader]
  rfl

/-- A reader that fails leaves the partition in its state. -/
theorem run_advance_of_error {reader reader' : ρ} {cause : LoadError} {log : List Log.Entry}
    (h : (RecordReader.next disk).run reader = ⟨.error cause, reader', log⟩) (it : Partition ρ) :
    (advance disk reader).run it = ⟨.error cause, { it with reader := some reader' }, log⟩ :=
  Step.run_bind_error (run_onReader h it)

theorem run_advance_of_ok {reader reader' : ρ} {found : Option Record} {log : List Log.Entry}
    (h : (RecordReader.next disk).run reader = ⟨.ok found, reader', log⟩) (it : Partition ρ) :
    ((advance disk reader).run it).result = .ok found
      ∧ ((advance disk reader).run it).state.reader = some reader' := by
  unfold advance
  rw [Step.run_bind_ok (run_onReader h it)]
  cases found with
  | none => exact ⟨rfl, rfl⟩
  | some record => exact ⟨rfl, rfl⟩

end

/-! ## Turns -/

/-- Calls on a disk that nobody changes meanwhile. -/
def allOn {ρ : Type} (disk : Disk) (calls : List (LifeCall ρ)) : List (Disk × LifeCall ρ) :=
  calls.map fun call => (disk, call)

section

variable {ρ : Type} {it after : Partition ρ} {call : LifeCall ρ}
  {result : LoadResult (Option Record)} {uses : List ReaderUse}

/-- What was opened stays so. -/
theorem ne_created_of_turn (h : Turn it call result after uses) (hopened : it.state ≠ .created) :
    after.state ≠ .created := by
  intro hafter
  -- only the first state has so low a rank
  have hrank := h.rank_le
  rw [hafter] at hrank
  revert hopened hrank
  cases it.state <;> decide

/-- Only a call for a record hands out one. -/
theorem kind_of_read {record : Record} (h : Turn it call (.ok (some record)) after uses) :
    call.kind = .next := by
  cases h with
  | read hkind => exact hkind

/-- A call for a record that does not come to the reader changes nothing. -/
theorem of_not_reading (h : Turn it call result after uses) (hnext : call.kind = .next)
    (hstate : it.state ∉ [.initialized, .seeked, .iterating]) :
    after = it ∧ ∀ record, result ≠ .ok (some record) := by
  cases h with
  -- the call was refused, or it came behind the end
  | refused => exact ⟨rfl, fun _ hread => by cases hread⟩
  | failed hin =>
    rw [hnext] at hin
    exact absurd hin hstate
  | opened hkind => cases hkind.symm.trans hnext
  | sought hkind => cases hkind.symm.trans hnext
  | read _ hin => exact absurd hin hstate
  | ended _ hin => exact absurd hin hstate
  | endedBefore => exact ⟨rfl, fun _ hread => by cases hread⟩
  | closed hkind => cases hkind.symm.trans hnext
  | closedBefore hkind => cases hkind.symm.trans hnext

/-- A call to close leaves the reader or lets go of it. -/
theorem reader_of_close (h : Turn it call result after uses) (hclose : call.kind = .close) :
    after.reader = it.reader ∨ after.reader = none := by
  cases h with
  | refused => exact .inl rfl
  | failed hin =>
    rw [hclose] at hin
    cases hin
  | opened hkind => cases hkind.symm.trans hclose
  | sought hkind => cases hkind.symm.trans hclose
  | read hkind => cases hkind.symm.trans hclose
  | ended hkind => cases hkind.symm.trans hclose
  | endedBefore => exact .inl rfl
  | closed => exact .inr rfl
  | closedBefore => exact .inl rfl

/-- A call that has failed on the files, not on the state, was for a partition that reads, and left
it reading. -/
theorem reading_of_failed {cause : LoadError} (h : Turn it call (.error cause) after uses)
    (hkind : call.kind = .seek ∨ call.kind = .next) (hio : cause.group = .io) :
    after.state ∈ [.initialized, .seeked, .iterating] := by
  cases h with
  | refused => cases hio
  | failed hin =>
    rcases hkind with hkind | hkind
    · rw [hkind] at hin
      show it.state ∈ _
      rw [List.mem_singleton.1 hin]
      decide
    · rw [hkind] at hin
      exact hin

end

/-! ## Nothing more to give -/

variable {disk : Disk} {it : Partition TableReader} {reader : TableReader}

/-- A partition has been opened, and its reader gives nothing any more. -/
structure IsSilent (disk : Disk) (it : Partition TableReader) : Prop where
  opened : it.state ≠ .created
  reader : it.ReaderHolds fun reader => ¬ reader.Gives disk

theorem readerHolds_next (hsound : it.IsSound)
    (h : it.ReaderHolds fun reader => ¬ reader.Gives disk) :
    (∀ record, ((next disk).run it).result ≠ .ok (some record))
      ∧ ((next disk).run it).state.ReaderHolds fun reader => ¬ reader.Gives disk := by
  by_cases hstate : it.state ∈ [.initialized, .seeked, .iterating]
  · obtain ⟨reader, hreader⟩ := LifeCall.exists_reader hsound hstate
    -- what the reader does with the call is what the partition answers
    obtain ⟨hnone, hsilent⟩ := (TableReader.continues_next disk reader).silent (h reader hreader)
    rw [run_next_of_reader hstate hreader]
    rcases hnext : (TableReader.next disk).run reader with ⟨result, reader', log⟩
    rw [hnext] at hnone hsilent
    cases result with
    | error cause =>
      rw [run_advance_of_error hnext it]
      refine ⟨fun _ hread => ?_, fun held hheld => ?_⟩
      · cases hread
      · obtain rfl := Option.some.inj hheld
        exact hsilent
    | ok found =>
      obtain ⟨hresult, hafter⟩ := run_advance_of_ok hnext it
      rw [hresult]
      refine ⟨hnone, fun held hheld => ?_⟩
      obtain rfl := Option.some.inj (hafter.symm.trans hheld)
      exact hsilent
  -- no reader is asked before the start and behind the end
  · have hturn : Turn it (.later .next) ((next disk).run it).result ((next disk).run it).state
        (LifeCall.uses disk (.later .next) it) := LifeCall.turn hsound (.later .next)
    obtain ⟨hstill, hnone⟩ := of_not_reading hturn rfl hstate
    rw [hstill]
    exact ⟨hnone, h⟩

theorem hasRead_eq_false {ρ : Type} {e : Episode ρ} (h : ∀ record, e.result ≠ .ok (some record)) :
    e.hasRead = false := by
  unfold Episode.hasRead
  split
  · next record hread => exact absurd hread (h record)
  · rfl

/-- Whatever is called of a silent partition, it stays silent and hands out nothing. -/
theorem isSilent_episode (hsound : it.IsSound) (h : IsSilent disk it)
    (call : LifeCall TableReader) :
    IsSilent disk (episode disk call it).after ∧ (episode disk call it).hasRead = false := by
  have hturn := (isTurn_episode hsound disk call).turn
  have hopened := ne_created_of_turn hturn h.opened
  -- a seek brings nothing back
  have hseek : ∀ (reader : TableReader) key, ¬ reader.Gives disk →
      ¬ ((RecordReader.seekTo disk key).run reader).state.Gives disk :=
    fun _ _ hnot hgives => hnot (TableReader.gives_of_gives_seekTo hgives)
  -- only a call for a record could have handed one out
  have hother : call.kind ≠ .next → (episode disk call it).hasRead = false := by
    refine fun hkind => hasRead_eq_false fun record hread => hkind ?_
    rw [hread] at hturn
    exact kind_of_read hturn
  -- a partition that was opened is not opened again
  have hrefused : it.state ∉ call.kind.allowed →
      IsSilent disk (episode disk call it).after := by
    intro hstate
    rw [(hturn.of_not_allowed hstate).2.2]
    exact h
  cases call with
  | start engine job =>
    exact ⟨hrefused fun hin => h.opened (List.mem_singleton.1 hin), hother CallKind.noConfusion⟩
  | attach reader share =>
    exact ⟨hrefused fun hin => h.opened (List.mem_singleton.1 hin), hother CallKind.noConfusion⟩
  | later call =>
    cases call with
    | seekRecord target =>
      have hreader := readerHolds_seekRecord hseek h.reader target
      exact ⟨⟨hopened, Keeps.bind_of_state hreader fun _ => Keeps.pure _⟩,
        hother CallKind.noConfusion⟩
    | seekValues values =>
      have hreader := readerHolds_seekValues hseek h.reader values
      exact ⟨⟨hopened, Keeps.bind_of_state hreader fun _ => Keeps.pure _⟩,
        hother CallKind.noConfusion⟩
    | next =>
      obtain ⟨hnone, hreader⟩ := readerHolds_next hsound h.reader
      exact ⟨⟨hopened, hreader⟩, hasRead_eq_false hnone⟩
    | close =>
      refine ⟨⟨hopened, fun held hheld => ?_⟩, hother CallKind.noConfusion⟩
      rcases reader_of_close hturn rfl with hkept | hgone
      · exact h.reader held (hkept.symm.trans hheld)
      · cases hgone.symm.trans hheld

/-- So it is with any calls in a row. -/
theorem hasRead_of_isSilent (hsound : it.IsSound) (h : IsSilent disk it)
    (calls : List (LifeCall TableReader)) :
    ∀ e ∈ history it (allOn disk calls), e.hasRead = false := by
  induction calls generalizing it with
  | nil => exact fun e he => absurd he List.not_mem_nil
  | cons call calls ih =>
    obtain ⟨hsilent, hread⟩ := isSilent_episode hsound h call
    have hsound' := (isTurn_episode hsound disk call).turn.sound hsound
    exact List.forall_mem_cons.2 ⟨hread, ih hsound' hsilent⟩

/-! ## Something left to give -/

/-- A reader that gives is brought to it by calls for records, one of which is answered. -/
theorem exists_hasRead_of_gives (hstate : it.state ∈ [.initialized, .seeked, .iterating])
    (hreader : it.reader = some reader) (hgives : reader.Gives disk) :
    ∃ calls : List (LifeCall TableReader),
      ∃ e ∈ history it (allOn disk calls), e.hasRead = true := by
  -- on what is left of the files: every failed call takes some of it
  induction hleft : reader.left disk using Nat.strongRecOn generalizing it reader with
  | ind left ih =>
    subst hleft
    have hgoes := (TableReader.continues_next disk reader).goes hgives
    have hrun : (next disk).run it = (advance disk reader).run it :=
      run_next_of_reader hstate hreader
    rcases hnext : (TableReader.next disk).run reader with ⟨result, reader', log⟩
    rw [hnext] at hgoes
    rcases hgoes with ⟨record, rfl⟩ | ⟨⟨cause, rfl⟩, hgives', hlt⟩
    · have hresult : (episode disk (.later .next) it).result = .ok (some record) :=
        (congrArg Outcome.result hrun).trans (run_advance_of_ok hnext it).1
      refine ⟨[.later .next], _, List.mem_cons_self, ?_⟩
      unfold Episode.hasRead
      rw [hresult]
    -- the call has failed, and the reader gives with less to come
    · let it' : Partition TableReader := { it with reader := some reader' }
      have hafter : (episode disk (.later .next) it).after = it' :=
        congrArg Outcome.state (hrun.trans (run_advance_of_error hnext it))
      obtain ⟨calls, e, he, hread⟩ :=
        ih _ hlt (show it'.state ∈ _ from hstate) (show it'.reader = _ from rfl) hgives' rfl
      rw [← hafter] at he
      exact ⟨.later .next :: calls, e, List.mem_cons_of_mem _ he, hread⟩

/-- In the life of a partition of a plan, after some calls, a seek or a call for a record has failed
on the files. -/
structure FailsOn (disk : Disk) (plan : LoadPlan) (before : List (LifeCall TableReader))
    (e : Episode TableReader) : Prop where
  comes : e = episode disk e.call (behind (ofPlan plan) (allOn disk before))
  kind : e.call.kind = .seek ∨ e.call.kind = .next
  fails : ∃ cause, e.result = .error cause ∧ cause.group = .io

/-- A call that has failed on the files leaves a reader, and whether a later call hands out a record
is up to what that reader gives. The partition itself refuses nothing. -/
theorem silent_after_failure_iff {plan : LoadPlan} {before : List (LifeCall TableReader)}
    {failed : Episode TableReader} (h : FailsOn disk plan before failed) :
    ∃ reader, failed.after.reader = some reader
      ∧ ((∀ later, ∀ e ∈ history failed.after (allOn disk later), e.hasRead = false)
          ↔ ¬ reader.Gives disk) := by
  have hsound : (behind (ofPlan plan) (allOn disk before)).IsSound := isSound_behind ⟨rfl⟩ _
  have hturn := isTurn_episode hsound disk failed.call
  rw [← h.comes] at hturn
  obtain ⟨cause, hfailed, hio⟩ := h.fails
  have hturned := hturn.turn
  rw [hfailed] at hturned
  -- the failure was not one of the state, so the partition still reads
  have hstate := reading_of_failed hturned h.kind hio
  have hsound' := hturned.sound hturn.sound
  obtain ⟨reader, hreader⟩ := LifeCall.exists_reader hsound' hstate
  refine ⟨reader, hreader, fun hsilent hgives => ?_, fun hnot later => ?_⟩
  · obtain ⟨calls, e, he, hread⟩ := exists_hasRead_of_gives hstate hreader hgives
    rw [hsilent calls e he] at hread
    cases hread
  · refine hasRead_of_isSilent hsound' ⟨fun hcreated => ?_, fun held hheld => ?_⟩ later
    · rw [hcreated] at hstate
      revert hstate
      decide
    · obtain rfl := Option.some.inj (hreader.symm.trans hheld)
      exact hnot

/-! ## A corrupted row in front of a good one -/

/-- The table `t` with two rows, of which the first one has another digit than was written. -/
def corruptRows : Disk where
  root := .dir [("t", .dir [(".schema", .file 0), ("records.dat", .file 1)])]
  contents := [Text.utf8Bytes "id:int",
    (Table.Frame.around (Text.utf8Bytes "[1]")).set 5 0x39
      ++ Table.Frame.around (Text.utf8Bytes "[2]")]

/-- A plan for all columns of the table `t`, not sorted. -/
def planOfCorrupt : LoadPlan where
  consumer := "loader"
  signature := "sig"
  paths := ["t"]
  projection := none
  sorted := false
  schema := ⟨[⟨"id", .primitive .int⟩]⟩
  sortOrder := none

/-- The table before the first call. -/
def corruptCursor : TableCursor where
  table := ⟨"t", ⟨[⟨"id", .primitive .int⟩]⟩, none⟩
  file := ⟨"t/records.dat", some 1, 0, [], 0⟩
  columns := [⟨some 0, []⟩]
  keys := none
  head := none
  done := false

def corruptReader : TableReader := ⟨⟨[⟨"id", .primitive .int⟩]⟩, false, [corruptCursor]⟩

/-- The table opens: nothing is read of its rows yet. -/
theorem openInput_corruptRows {settings : Settings} (hpaths : settings.tablePaths = .ok ["t"])
    (hsorted : StorageEngine.wantsSorted settings = false) :
    (StorageEngine.ofDisk corruptRows).openInput settings "" = .ok corruptReader := by
  have htext : corruptRows.bytesOf 0 = Text.utf8Bytes "id:int" := by
    simp [corruptRows, Disk.bytesOf]
  have hfile : corruptRows.root.find (Table.schemaPath "t") = .ok (.file 0) := rfl
  have hopen : ["t"].mapM (Table.openAt corruptRows)
      = .ok [⟨"t", ⟨[⟨"id", .primitive .int⟩]⟩, none⟩] :=
    Results.mapM_eq_ok_iff.2 (.cons (Table.openAt_of_utf8Bytes hfile htext (by cbv) rfl) .nil)
  have hparse : Projection.parse ⟨[⟨"id", .primitive .int⟩]⟩ ""
      = .ok ⟨[⟨"id", []⟩], ⟨[⟨"id", .primitive .int⟩]⟩⟩ := by cbv
  have hcursor : TableCursor.openTable corruptRows
      ⟨[⟨"id", []⟩], ⟨[⟨"id", .primitive .int⟩]⟩⟩ none ⟨"t", ⟨[⟨"id", .primitive .int⟩]⟩, none⟩
        = .ok corruptCursor := rfl
  show (settings.tablePaths >>= fun paths => StorageEngine.readerOf corruptRows paths
    (StorageEngine.wantsSorted settings) "") = _
  rw [hpaths, hsorted]
  show StorageEngine.readerOf corruptRows ["t"] false "" = _
  unfold StorageEngine.readerOf StorageEngine.tablesAt
  rw [if_neg (by decide), hopen]
  exact TableReader.ofTables_eq_ok_iff.2 ⟨_, _, _, rfl, hparse,
    Results.mapM_eq_ok_iff.2 (.cons hcursor .nil), rfl⟩

/-- A plan that is not sorted starts with the reader of its input. -/
theorem run_openWith_of_unsorted {disk : Disk} {plan : LoadPlan} {task : TaskSettings}
    {reader : TableReader} (h : plan.sorted = false)
    (hopen : (StorageEngine.ofDisk disk).openInput task.settings plan.projectionText = .ok reader) :
    ∃ log, (openWith (StorageEngine.ofDisk disk) plan task).run (ofPlan plan)
      = ⟨.ok (), ⟨plan, .initialized, some task, some reader, none, none, 0⟩, log⟩ := by
  unfold openWith
  rw [h, hopen]
  exact ⟨_, rfl⟩

/-- The partition has started, and its reader stands in front of both rows. -/
theorem behind_start_corruptRows :
    ∃ task, behind (ofPlan planOfCorrupt)
        (allOn corruptRows [.start (StorageEngine.ofDisk corruptRows) .empty])
      = ⟨planOfCorrupt, .initialized, task, some corruptReader, none, none, 0⟩ := by
  obtain ⟨task, htask, htables, hmerged⟩ := exists_settingsFor planOfCorrupt .empty
  have hopen := openInput_corruptRows (htables.trans (by cbv)) hmerged
  obtain ⟨log, hrun⟩ := run_openWith_of_unsorted (show planOfCorrupt.sorted = false from rfl) hopen
  have hstart : (start (StorageEngine.ofDisk corruptRows) .empty).run (ofPlan planOfCorrupt)
      = _ := (run_start htask).trans hrun
  have hperform : ((LifeCall.start (StorageEngine.ofDisk corruptRows) .empty).perform
      corruptRows).run (ofPlan planOfCorrupt) = _ := Step.run_bind_ok hstart
  exact ⟨some task, congrArg Outcome.state hperform⟩

/-- The first row fails its checksum, and the second one stands behind it. -/
theorem salvage_corruptRows :
    corruptRows.bytesOf 1 ≠ [] ∧ ¬ Table.Frame.Leads (corruptRows.bytesOf 1)
      ∧ Table.Frame.salvage (corruptRows.bytesOf 1) = [.array [.number (.int 2)]] := by
  -- the length field is as it was written, so the frame ends where it should
  have hfront : Table.Frame.front (corruptRows.bytesOf 1)
      = (Table.Frame.around (Text.utf8Bytes "[1]")).set 5 0x39 := by decide +kernel
  have hbehind : Table.Frame.behind (corruptRows.bytesOf 1)
      = Table.Frame.around (Text.utf8Bytes "[2]") ++ [] := by decide +kernel
  have hne : corruptRows.bytesOf 1 ≠ [] := by decide +kernel
  have hnone : ¬ Table.Frame.Leads (corruptRows.bytesOf 1) := by
    rw [Table.Frame.leads_iff, hfront]
    rintro ⟨payload, hframe⟩
    exact absurd hframe.checks (by decide +kernel)
  have hpayload : Json.parse? "[2]" = some (.array [.number (.int 2)]) := by cbv
  have hgood := Table.Frame.read_around_utf8Bytes (by decide) hpayload
  refine ⟨hne, hnone, ?_⟩
  rw [Table.Frame.salvage_of_not_leads hne hnone, hbehind,
    Table.Frame.salvage_of_isFrame (Table.Frame.read_eq_ok_iff.1 hgood), Table.Frame.salvage]

/-- The second row is left to give. -/
theorem gives_corruptReader : corruptReader.Gives corruptRows := by
  have hunsorted : ¬ corruptReader.sorted = true := Bool.false_ne_true
  obtain ⟨-, -, hsalvage⟩ := salvage_corruptRows
  refine (TableReader.gives_of_unsorted hunsorted corruptReader.cursors).2 (.inl ?_)
  rw [TableCursor.rowsLeft_of_number rfl rfl]
  show (Table.Frame.salvage (corruptRows.bytesOf 1)).filterMap _ ≠ []
  rw [hsalvage]
  exact List.cons_ne_nil _ _

/-- The first call for a record fails, and the reader gives another one. -/
theorem exists_failsOn_corruptRows :
    ∃ failed reader, FailsOn corruptRows planOfCorrupt
        [.start (StorageEngine.ofDisk corruptRows) .empty] failed
      ∧ failed.after.state = .initialized ∧ failed.after.reader = some reader
      ∧ reader.Gives corruptRows := by
  obtain ⟨task, hstart⟩ := behind_start_corruptRows
  obtain ⟨hne, hnone, -⟩ := salvage_corruptRows
  have hrow : ∃ fault s', TableCursor.nextRow corruptRows corruptCursor
      = ⟨.error (.io fault), s', []⟩ :=
    TableCursor.exists_nextRow_of_not_leads rfl rfl hne hnone
  obtain ⟨fault, s', hrow⟩ := hrow
  have hturn : TableReader.nextInTurn corruptRows corruptReader.cursors
      = ⟨.error (.io fault), [s'], []⟩ := by
    show TableReader.nextInTurn corruptRows [corruptCursor] = _
    unfold TableReader.nextInTurn
    rw [hrow]
  have hnext := TableReader.run_next_of_unsorted corruptRows
    (show ¬ corruptReader.sorted = true from Bool.false_ne_true)
  rw [hturn] at hnext
  have hgoes := (TableReader.continues_next corruptRows corruptReader).goes gives_corruptReader
  rw [hnext] at hgoes
  -- the call has not handed out a record, so the reader still gives
  rcases hgoes with ⟨_, hread⟩ | ⟨-, hgives, -⟩
  · cases hread
  let opened : Partition TableReader :=
    ⟨planOfCorrupt, .initialized, task, some corruptReader, none, none, 0⟩
  have hrun : (next corruptRows).run opened = _ :=
    (run_next_of_reader (show opened.state ∈ _ from List.mem_cons_self) rfl).trans
      (run_advance_of_error hnext opened)
  refine ⟨episode corruptRows (.later .next) opened, _, ⟨?_, .inr rfl, .io fault, ?_, rfl⟩, ?_, ?_,
    hgives⟩
  · rw [hstart]
    rfl
  · exact congrArg Outcome.result hrun
  · exact congrArg (fun o => o.state.state) hrun
  · exact congrArg (fun o => o.state.reader) hrun

/-- The second row of the table is handed out by a later call. -/
theorem not_silent_corruptRows :
    ∃ failed, FailsOn corruptRows planOfCorrupt
        [.start (StorageEngine.ofDisk corruptRows) .empty] failed
      ∧ ∃ later, ∃ e ∈ history failed.after (allOn corruptRows later), e.hasRead = true := by
  obtain ⟨failed, reader, hfails, hstate, hreader, hgives⟩ := exists_failsOn_corruptRows
  have hreading : failed.after.state ∈ [.initialized, .seeked, .iterating] := by
    rw [hstate]
    exact List.mem_cons_self
  exact ⟨failed, hfails, exists_hasRead_of_gives hreading hreader hgives⟩

theorem silent_after_failure_corruptRows :
    ∃ failed, FailsOn corruptRows planOfCorrupt
        [.start (StorageEngine.ofDisk corruptRows) .empty] failed
      ∧ ∃ reader, failed.after.reader = some reader
        ∧ ((∀ later, ∀ e ∈ history failed.after (allOn corruptRows later), e.hasRead = false)
          ↔ ¬ reader.Gives corruptRows) := by
  obtain ⟨failed, reader, hfails, -⟩ := exists_failsOn_corruptRows
  exact ⟨failed, hfails, silent_after_failure_iff hfails⟩

end TableScan.Partition
