import TableScan.Load.Plan
import TableScan.Table.Engine

/-!
# Partitions

One partition at work. It is made from a plan, gets a reader (its own over the whole input, or one
that the host has opened for a share), may be positioned once by a key, and hands out records until
the end:

* `created` until a reader is there, then `initialized`,
* `seeked` after a seek, which has to come before the first record,
* `iterating` from the first record on, `exhausted` at the end,
* `closed` from any state.

Calls that the state does not allow fail, and a failing call leaves the state as it was.
-/

namespace TableScan

/-- Where a partition is in its life. -/
inductive PartitionState where
  | created
  | initialized
  | seeked
  | iterating
  | exhausted
  | closed
  deriving DecidableEq, Repr

def PartitionState.name : PartitionState → String
  | .created => "Created"
  | .initialized => "Initialized"
  | .seeked => "Seeked"
  | .iterating => "Iterating"
  | .exhausted => "Exhausted"
  | .closed => "Closed"

/-- One partition: its plan, its state, and what it holds by now. -/
structure Partition (ρ : Type) where
  plan : LoadPlan
  state : PartitionState
  task : Option TaskSettings
  reader : Option ρ
  sortOrder : Option SortOrder
  tupleKeys : Option KeyLayout
  records : Nat
  deriving Repr

namespace Partition

variable {ρ : Type}

def ofPlan (plan : LoadPlan) : Partition ρ :=
  ⟨plan, .created, none, none, none, none, 0⟩

/-- Fails unless the partition is in one of some states. -/
def allowIn (operation : String) (allowed : List PartitionState) :
    Step (Partition ρ) Unit := do
  let it ← Step.get
  if allowed.contains it.state then return ()
  else Step.fail (.state operation it.state.name)

def enter (state : PartitionState) : Step (Partition ρ) Unit :=
  Step.update fun it => { it with state := state }

/-- What a partition of a plan sees of a job: the task settings, with the tables of the plan, and
merged by key if the plan is sorted. -/
def settingsFor (d : LoadPlan) (job : JobSettings) : LoadResult TaskSettings := do
  let task ← (TaskSettings.ofJob job).withTables d.paths
  if d.sorted then task.with? SettingKey.inputSorted.name "true" else return task

/-- Makes ready to build keys of an order. -/
def adoptOrder (order : SortOrder) : Step (Partition ρ) Unit := do
  let keys ← Step.ofResult (KeyLayout.forTuples order)
  Step.update fun it => { it with tupleKeys := some keys, sortOrder := some order }

def word (b : Bool) : String := if b then "true" else "false"

/-- Opens a reader of the whole input. A sorted plan wants tables sorted on its columns. -/
def start (engine : StorageEngine ρ) (job : JobSettings) : Step (Partition ρ) Unit := do
  allowIn "initialize" [.created]
  let it ← Step.get
  let d := it.plan
  let task ← Step.ofResult (settingsFor d job)
  if d.sorted then
    let order ← Step.ofResult (engine.agreedOrder task.settings d.sortOrder)
    adoptOrder order
  -- the order is agreed before anything is opened
  let reader ← Step.ofResult (engine.openInput task.settings d.projectionText)
  Step.event .readerInitialized
    [("projection", d.projectionText), ("signature", d.signature), ("sorted", word d.sorted),
      ("tables", toString d.paths.length)]
  Step.update fun it => { it with task := some task, reader := some reader }
  enter .initialized

/-- Takes over a reader that the host has opened for a share. -/
def attach (reader : ρ) (share : InputShare) : Step (Partition ρ) Unit := do
  allowIn "bind_reader" [.created]
  let it ← Step.get
  let d := it.plan
  match d.sortOrder with
  -- the reader is trusted to be merged by the order of the plan
  | some order => if d.sorted then adoptOrder order
  | none => pure ()
  Step.event .readerBound [("signature", d.signature), ("split", toString share.index)]
  Step.update fun it => { it with reader := some reader }
  enter .initialized

def unsortedLoad : LoadError := .configuration .seekInUnsortedLoad

/-- The sort columns and the reader that a seek needs. -/
def seekParts : Step (Partition ρ) (SortOrder × ρ) := do
  let it ← Step.get
  match it.sortOrder, it.reader with
  | none, _ => Step.fail unsortedLoad
  | some _, none => Step.fail (.state "seek_near" it.state.name)
  | some order, some reader => return (order, reader)

/-- A step of a reader, which is the one held afterwards. -/
def onReader {α : Type} (reader : ρ) (step : Step ρ α) : Step (Partition ρ) α := fun it =>
  let r := step reader
  ⟨r.result, { it with reader := some r.state }, r.log⟩

variable [RecordReader ρ]

def seekTo (disk : Disk) (reader : ρ) (key : RowKey) : Step (Partition ρ) Unit := do
  onReader reader (RecordReader.seekTo disk key)
  let it ← Step.get
  Step.event .seekComplete
    [("key_bytes", toString key.bytes.length), ("signature", it.plan.signature)]
  enter .seeked

/-- Positions the partition at the first record whose key is not below that of `target`, a record
laid out like those of the reader. -/
def seekRecord (disk : Disk) (target : Record) : Step (Partition ρ) Unit := do
  allowIn "seek_near" [.initialized]
  let (order, reader) ← seekParts
  let keys ← Step.ofResult (KeyLayout.ofOrder order (RecordReader.schema reader))
  let key ← Step.ofResult (keys.keyOfRecord target)
  seekTo disk reader key

/-- Positions the partition at the first record whose key is not below that of a tuple of the sort
columns' values. -/
def seekValues (disk : Disk) (values : List Value) : Step (Partition ρ) Unit := do
  allowIn "seek_near" [.initialized]
  let (_, reader) ← seekParts
  let it ← Step.get
  match it.tupleKeys with
  | none => Step.fail unsortedLoad
  | some keys =>
    let key ← Step.ofResult (keys.keyOfTuple values)
    seekTo disk reader key

/-- Reads the next record. The first one starts the iteration, and the end of the input ends it. -/
def advance (disk : Disk) (reader : ρ) : Step (Partition ρ) (Option Record) := do
  -- a reader that fails leaves the partition in its state
  match ← onReader reader (RecordReader.next disk) with
  | some record =>
    Step.update fun it => { it with records := it.records + 1 }
    enter .iterating
    return some record
  | none =>
    let it ← Step.get
    Step.event .partitionExhausted
      [("records", toString it.records), ("signature", it.plan.signature)]
    enter .exhausted
    return none

/-- The next record; nothing at the end, which may be asked for again. -/
def next (disk : Disk) : Step (Partition ρ) (Option Record) := do
  let it ← Step.get
  -- the end is told again without asking the reader
  if it.state = .exhausted then return none
  else
    allowIn "next" [.initialized, .seeked, .iterating]
    match it.reader with
    | none => Step.fail (.state "next" PartitionState.created.name)
    | some reader => advance disk reader

/-- Lets go of the reader. A reader that fails to close is reported and no error. -/
def release : Step (Partition ρ) Unit := fun it =>
  match it.reader with
  | none => ⟨.ok (), it, []⟩
  | some reader =>
    let r := RecordReader.close reader
    -- the partition lets go of the reader also where closing fails
    let failure := match r.result with
      | .ok () => []
      | .error e => [⟨.warn, "READER_CLOSE_FAILED", [("error", e.text)]⟩]
    ⟨.ok (), { it with reader := none }, r.log ++ failure⟩

/-- Closes the partition; it may be closed already. -/
def close : Step (Partition ρ) Unit := do
  let it ← Step.get
  if it.state = .closed then return ()
  else
    enter .closed
    release
    Step.event .readerClosed [("signature", it.plan.signature)]

end Partition

end TableScan
