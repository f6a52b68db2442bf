import TableScan.Proofs.Keeps
import TableScan.Proofs.Load.Isolation

/-!
# Watched readers

How a partition uses its reader is seen by watching the reader: a `Watched` reader does what the
reader in it does, and tells of it in the log. A partition reads no log, so that it does the same
with a watched reader as with the reader itself.

`Shows` says of a step what it answers and leaves, and of the same step with readers watched that it
does so too, and which uses its log tells. The steps that calls are made of are gone through here,
whatever the reader does; each of its operations may fail.
-/

namespace TableScan

/-! ## Uses of readers -/

/-- What can be asked of a reader. -/
inductive ReaderUse where
  | seek
  | take
  | close
  deriving DecidableEq, Repr

namespace ReaderUse

/-- A use as the log tells it, with a severity that no event has. -/
def entry : ReaderUse → Log.Entry
  | .seek => ⟨.trace, "seek", []⟩
  | .take => ⟨.trace, "take", []⟩
  | .close => ⟨.trace, "close", []⟩

/-- The use that an entry tells, if it tells one. -/
def ofEntry? (e : Log.Entry) : Option ReaderUse :=
  [seek, take, close].find? fun use => decide (use.entry = e)

/-- The uses that a log tells. -/
def inLog (log : List Log.Entry) : List ReaderUse := log.filterMap ofEntry?

/-- A use that is told is read back from the log. -/
theorem inLog_entry (use : ReaderUse) : inLog [use.entry] = [use] := by
  cases use <;> rfl

/-- Entries of other severities tell no use, so the log of a partition can be searched for uses. -/
theorem ofEntry?_of_severity {e : Log.Entry} (h : e.severity ≠ .trace) : ofEntry? e = none := by
  refine List.find?_eq_none.2 fun use _ heq => h ?_
  rw [← of_decide_eq_true heq]
  cases use <;> rfl

/-- Events tell no use: none of them has the severity of a use. -/
theorem inLog_event (e : Log.Event) (fields : List (String × String)) :
    inLog [.ofEvent e fields] = [] := by
  have hseverity : (Log.Entry.ofEvent e fields).severity ≠ .trace := by
    cases e <;> exact fun h => nomatch h
  rw [inLog, List.filterMap_cons, ofEntry?_of_severity hseverity, List.filterMap_nil]

end ReaderUse

/-- A reader that tells of its uses, and of nothing else. -/
structure Watched (ρ : Type) where
  reader : ρ

variable {ρ α β γ : Type}

namespace Watched

/-- A step of the reader under watch. What the reader itself logs is left out, and the use is told
in its place, whether the step fails or not. -/
def tell (use : ReaderUse) (step : Step ρ α) : Step (Watched ρ) α := fun w =>
  let r := step w.reader
  ⟨r.result, ⟨r.state⟩, [use.entry]⟩

instance [RecordReader ρ] : RecordReader (Watched ρ) where
  schema w := RecordReader.schema w.reader
  seekTo disk key := tell .seek (RecordReader.seekTo disk key)
  next disk := tell .take (RecordReader.next disk)
  close := tell .close RecordReader.close

end Watched

/-- The engine that opens watched readers. -/
def StorageEngine.watched (engine : StorageEngine ρ) : StorageEngine (Watched ρ) where
  schemaOf := engine.schemaOf
  agreedOrder := engine.agreedOrder
  sharedOrder := engine.sharedOrder
  shares := engine.shares
  openInput settings text := (engine.openInput settings text).map Watched.mk
  openShare settings share text := (engine.openShare settings share text).map Watched.mk

/-- The partition with its reader watched. -/
def Partition.watched (it : Partition ρ) : Partition (Watched ρ) :=
  -- all fields but the reader are the same
  ⟨it.plan, it.state, it.task, it.reader.map Watched.mk, it.sortOrder, it.tupleKeys, it.records⟩

namespace Partition

@[simp] theorem plan_watched (it : Partition ρ) : it.watched.plan = it.plan := rfl

@[simp] theorem state_watched (it : Partition ρ) : it.watched.state = it.state := rfl

@[simp] theorem reader_watched (it : Partition ρ) :
    it.watched.reader = it.reader.map Watched.mk := rfl

@[simp] theorem sortOrder_watched (it : Partition ρ) : it.watched.sortOrder = it.sortOrder := rfl

@[simp] theorem tupleKeys_watched (it : Partition ρ) : it.watched.tupleKeys = it.tupleKeys := rfl

end Partition

/-! ## Steps under watch -/

/-- A step answers and leaves a partition. With readers watched it does the same, and the log tells
some uses. -/
structure Shows (step : Step (Partition ρ) α) (watched : Step (Partition (Watched ρ)) α)
    (it : Partition ρ) (result : LoadResult α) (after : Partition ρ) (uses : List ReaderUse) :
    Prop where
  plain : ∃ log, step.run it = ⟨result, after, log⟩
  told : ∃ log, watched.run it.watched = ⟨result, after.watched, log⟩
    ∧ ReaderUse.inLog log = uses

namespace Shows

variable {it mid after : Partition ρ} {uses uses' : List ReaderUse}

/-- One step after another shows what both show, and the uses of the first come first. -/
theorem bind {x : Step (Partition ρ) α} {y : Step (Partition (Watched ρ)) α}
    {f : α → Step (Partition ρ) β} {g : α → Step (Partition (Watched ρ)) β} {a : α}
    {result : LoadResult β} (h : Shows x y it (.ok a) mid uses)
    (hnext : Shows (f a) (g a) mid result after uses') :
    Shows (x >>= f) (y >>= g) it result after (uses ++ uses') := by
  obtain ⟨⟨log, hx⟩, wlog, hy, huses⟩ := h
  obtain ⟨⟨log', hf⟩, wlog', hg, huses'⟩ := hnext
  refine ⟨⟨log ++ log', ?_⟩, wlog ++ wlog', ?_, ?_⟩
  · rw [Step.run_bind_ok hx, hf]
  · rw [Step.run_bind_ok hy, hg]
  · rw [ReaderUse.inLog, List.filterMap_append]
    exact congrArg₂ _ huses huses'

/-- A step that uses no reader comes before others. -/
theorem bind_silent {x : Step (Partition ρ) α} {y : Step (Partition (Watched ρ)) α}
    {f : α → Step (Partition ρ) β} {g : α → Step (Partition (Watched ρ)) β} {a : α}
    {result : LoadResult β} (h : Shows x y it (.ok a) mid [])
    (hnext : Shows (f a) (g a) mid result after uses) :
    Shows (x >>= f) (y >>= g) it result after uses := h.bind hnext

/-- Steps that use no reader come behind one. -/
theorem bind_last {x : Step (Partition ρ) α} {y : Step (Partition (Watched ρ)) α}
    {f : α → Step (Partition ρ) β} {g : α → Step (Partition (Watched ρ)) β} {a : α}
    {result : LoadResult β} (h : Shows x y it (.ok a) mid uses)
    (hnext : Shows (f a) (g a) mid result after []) :
    Shows (x >>= f) (y >>= g) it result after uses := by
  have hall := h.bind hnext
  rwa [List.append_nil] at hall

/-- A step that fails ends the sequence, with the uses that it has told. -/
theorem bind_error {x : Step (Partition ρ) α} {y : Step (Partition (Watched ρ)) α}
    {f : α → Step (Partition ρ) β} {g : α → Step (Partition (Watched ρ)) β} {cause : LoadError}
    (h : Shows x y it (.error cause) after uses) :
    Shows (x >>= f) (y >>= g) it (.error cause) after uses := by
  obtain ⟨⟨log, hx⟩, wlog, hy, huses⟩ := h
  exact ⟨⟨log, Step.run_bind_error hx⟩, wlog, Step.run_bind_error hy, huses⟩

/-- A look at the partition is no use; each side goes on with the partition that it sees. -/
theorem bind_get {f : Partition ρ → Step (Partition ρ) β}
    {g : Partition (Watched ρ) → Step (Partition (Watched ρ)) β} {result : LoadResult β}
    (h : Shows (f it) (g it.watched) it result after uses) :
    Shows (Step.get >>= f) (Step.get >>= g) it result after uses := ⟨h.plain, h.told⟩

/-- The two sides may go on with answers of their own types. -/
theorem bind_still {x : Step (Partition ρ) β} {y : Step (Partition (Watched ρ)) γ}
    {f : β → Step (Partition ρ) α} {g : γ → Step (Partition (Watched ρ)) α} {b : β} {c : γ}
    {result : LoadResult α} (hx : x.run it = ⟨.ok b, it, []⟩)
    (hy : y.run it.watched = ⟨.ok c, it.watched, []⟩)
    (h : Shows (f b) (g c) it result after uses) :
    Shows (x >>= f) (y >>= g) it result after uses := by
  obtain ⟨⟨log, hf⟩, wlog, hg, huses⟩ := h
  refine ⟨⟨[] ++ log, ?_⟩, [] ++ wlog, ?_, huses⟩
  · rw [Step.run_bind_ok hx, hf]
  · rw [Step.run_bind_ok hy, hg]

/-- A step without uses that fails on both sides, with answers of their own types, ends the
sequence. -/
theorem bind_fails {x : Step (Partition ρ) β} {y : Step (Partition (Watched ρ)) γ}
    {f : β → Step (Partition ρ) α} {g : γ → Step (Partition (Watched ρ)) α} {cause : LoadError}
    (hx : x.run it = ⟨.error cause, it, []⟩)
    (hy : y.run it.watched = ⟨.error cause, it.watched, []⟩) :
    Shows (x >>= f) (y >>= g) it (.error cause) it [] :=
  ⟨⟨[], Step.run_bind_error hx⟩, [], Step.run_bind_error hy, rfl⟩

/-- Answering uses no reader. -/
theorem pure (a : α) : Shows (Pure.pure a) (Pure.pure a) it (.ok a) it [] :=
  ⟨⟨[], rfl⟩, [], rfl, rfl⟩

/-- Failing uses no reader. -/
theorem fail (cause : LoadError) :
    Shows (Step.fail cause : Step _ α) (Step.fail cause) it (.error cause) it [] :=
  ⟨⟨[], rfl⟩, [], rfl, rfl⟩

/-- Reporting an event uses no reader, although it writes into the log. -/
theorem event (e : Log.Event) (fields : List (String × String)) :
    Shows (Step.event e fields) (Step.event e fields) it (.ok ()) it [] :=
  ⟨⟨_, rfl⟩, _, rfl, ReaderUse.inLog_event e fields⟩

/-- A change of the partition uses no reader, if it is the same change with the reader watched. -/
theorem update {change : Partition ρ → Partition ρ}
    {change' : Partition (Watched ρ) → Partition (Watched ρ)}
    (h : change' it.watched = (change it).watched) :
    Shows (Step.update change) (Step.update change') it (.ok ()) (change it) [] :=
  ⟨⟨[], rfl⟩, [], by rw [Step.run_update, h], rfl⟩

/-- A step on the reader is one use, whatever comes of it, and the reader that it leaves is kept. -/
theorem onReader (it : Partition ρ) (use : ReaderUse) {reader reader' : ρ} {step : Step ρ α}
    {result : LoadResult α} {log : List Log.Entry} (h : step.run reader = ⟨result, reader', log⟩) :
    Shows (Partition.onReader reader step)
      (Partition.onReader ⟨reader⟩ (Watched.tell use step)) it result
      { it with reader := some reader' } [use] := by
  have hstep : step reader = ⟨result, reader', log⟩ := h
  -- the logs differ, and the second one is the use
  refine ⟨⟨log, ?_⟩, [use.entry], ?_, ReaderUse.inLog_entry use⟩
  · unfold Partition.onReader Step.run
    rw [hstep]
  · unfold Partition.onReader Watched.tell Step.run
    simp only [hstep]
    rfl

/-! ## Parts of calls -/

/-- A call that the state allows goes on. -/
theorem allowIn {allowed : List PartitionState} (h : it.state ∈ allowed) (operation : String) :
    Shows (Partition.allowIn operation allowed) (Partition.allowIn operation allowed) it (.ok ())
      it [] := by
  have hcontains : allowed.contains it.state = true := List.contains_iff_mem.2 h
  refine bind_get ?_
  rw [Partition.state_watched, if_pos hcontains, if_pos hcontains]
  exact pure ()

/-- A call that the state does not allow fails by the names of the call and of the state, and has
used nothing. -/
theorem refused {allowed : List PartitionState} (h : it.state ∉ allowed) (operation : String) :
    Shows (Partition.allowIn operation allowed) (Partition.allowIn operation allowed) it
      (.error (.state operation it.state.name)) it [] := by
  have hcontains : ¬ allowed.contains it.state = true := mt List.contains_iff_mem.1 h
  refine bind_get ?_
  rw [Partition.state_watched, if_neg hcontains, if_neg hcontains]
  exact fail _

/-- Entering a state uses no reader. -/
theorem enter (state : PartitionState) :
    Shows (Partition.enter state) (Partition.enter state) it (.ok ())
      { it with state := state } [] := update rfl

/-- An order that lays out keys of tuples is adopted together with its layout. -/
theorem adoptOrder {order : SortOrder} {keys : KeyLayout}
    (h : KeyLayout.forTuples order = .ok keys) :
    Shows (Partition.adoptOrder order) (Partition.adoptOrder order) it (.ok ())
      { it with tupleKeys := some keys, sortOrder := some order } [] :=
  bind_still (congrArg (Outcome.mk · _ _) h) (congrArg (Outcome.mk · _ _) h) (update rfl)

/-- An order that no tuples can be sorted by is not adopted, and the partition stays as it was. -/
theorem adoptOrder_error {order : SortOrder} {cause : LoadError}
    (h : KeyLayout.forTuples order = .error cause) :
    Shows (Partition.adoptOrder order) (Partition.adoptOrder order) it (.error cause) it [] :=
  bind_fails (congrArg (Outcome.mk · _ _) h) (congrArg (Outcome.mk · _ _) h)

/-- A reader that the partition lets go of is closed. -/
theorem release [RecordReader ρ] :
    Shows Partition.release Partition.release it (.ok ()) { it with reader := none }
      (if it.reader.isSome then [.close] else []) := by
  obtain ⟨plan, state, task, reader, order, keys, records⟩ := it
  cases reader with
  | none => exact ⟨⟨[], rfl⟩, [], rfl, rfl⟩
  | some reader =>
    -- the partition lets go of the reader whether it can be closed or not
    rcases hclose : RecordReader.close reader with ⟨result, reader', log⟩
    have hwatched : RecordReader.close (Watched.mk reader)
        = ⟨result, ⟨reader'⟩, [ReaderUse.close.entry]⟩ := by
      show Watched.tell .close RecordReader.close ⟨reader⟩ = _
      rw [Watched.tell, hclose]
    cases result with
    | ok _ =>
      refine ⟨⟨log ++ [], ?_⟩, [ReaderUse.close.entry] ++ [], ?_, rfl⟩
      · simp only [Partition.release, Step.run, hclose]
      · simp only [Partition.release, Step.run, Partition.watched, Option.map_some, hwatched]
        rfl
    | error cause =>
      -- a failure to close is reported behind the use
      let failure : Log.Entry := ⟨.warn, "READER_CLOSE_FAILED", [("error", cause.text)]⟩
      have hsilent : ReaderUse.ofEntry? failure = none :=
        ReaderUse.ofEntry?_of_severity (show Log.Severity.warn ≠ .trace by decide)
      refine ⟨⟨log ++ [failure], ?_⟩, [ReaderUse.close.entry] ++ [failure], ?_, ?_⟩
      · simp only [Partition.release, Step.run, hclose, failure]
      · simp only [Partition.release, Step.run, Partition.watched, Option.map_some, hwatched,
          failure]
        rfl
      · rw [ReaderUse.inLog, List.filterMap_append, List.filterMap_cons_none hsilent]
        rfl

end Shows

end TableScan
